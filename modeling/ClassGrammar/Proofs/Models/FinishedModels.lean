import ClassGrammar.Proofs.Models.CheckedReferences
import ClassGrammar.Proofs.Models.FaithfulModels

/-! The sources of the elements of a finished model. Types and generalizations lead to the elements
of the very sources that the nodes refer to, so a model is read just when all needed nodes are
sound. -/
namespace ClassGrammar

/-- A model that has been read from top-level nodes, with the sources of its elements. -/
structure Model.ReadFrom (roots : List Node) (srcs : List Source) (m : Model) : Prop where
  tops : List.Forall₂ (fun n (h : Handle) => srcs[h]? = some (.node n)) roots m.roots
  heads : ∀ (h : Handle) (src : Source), srcs[h]? = some src → src.Heads (m.element h)
  registered : ∀ (h : Handle) (src : Source) key, srcs[h]? = some src → src.key? = some key →
    m.lookup key = some h
  members : ∀ (h : Handle) n, srcs[h]? = some (.node n) → n.StatesMembers m h (m.element h)
  types : ∀ (h : Handle) n, srcs[h]? = some (.node n) → ∀ c ∈ n.propertyNodes, ∀ owner p,
    c.StatesProperty m owner p →
      ∃ src, c.TypedBy (.ofRoots roots) src ∧ srcs[p.type]? = some src
  generals : ∀ (h : Handle) n, srcs[h]? = some (.node n) → n.isClass = true →
    ∀ c ∈ n.children "generalization", ∀ g, c.StatesGeneralization m g → ∃ general t,
      c.Specializes (.ofRoots roots) (.node general) ∧ g.targets = [t] ∧
        srcs[t]? = some (.node general)

namespace Draft.Rooted

variable {roots : List Node} {placed : List (Node × Handle)} {srcs : List Source} {d : Draft}

/-- A node whose element has been made is checked. -/
theorem resolves_of_source (hr : d.Rooted roots placed srcs) (hap : Node.Apart roots)
    (hc : (⟨d.model, []⟩ : Draft).Checked roots roots) {h : Handle} {n : Node}
    (hsrc : srcs[h]? = some (.node n)) : n.Resolves (.ofRoots roots) := by
  have hk := hr.traced.known h _ hsrc
  have hdone : n ∈ roots ∨ ∃ id, n.id? = some id ∧ (d.model.lookup id).isSome := by
    rcases hk with ⟨-, id, hid⟩ | ⟨m, hm, he, -⟩
    · have hcarries := (IdIndex.get?_mem hid).2
      have hl := (hr.traced.settled hap).registered h _ id hsrc hcarries
      exact .inr ⟨id, hcarries, by simp [hl]⟩
    · exact .inl (Source.node.inj he ▸ hm)
  rcases hc.resolved n hk.reached.mem hdone with hqueue | hres
  · cases hqueue
  · exact hres

/-- What is found under the identifier of a node comes from the node. -/
theorem source_of_lookup (hr : d.Rooted roots placed srcs) (hap : Node.Apart roots) {n : Node}
    {id : String} {h : Handle} (hn : (IdIndex.ofRoots roots).get? id = some n)
    (hl : d.model.lookup id = some h) : srcs[h]? = some (.node n) := by
  obtain ⟨src, hsrc, hkey⟩ := hr.traced.keyed id h hl
  have hown := hap.ownsId (IdIndex.mem_of_get?_ofRoots hn)
  rw [hsrc, hown.eq_node (IdIndex.get?_mem hn).2 hkey (hr.traced.known h src hsrc).reached]

/-- What is found under the reference of a library type stands for the type with its kind. -/
theorem source_of_library (hr : d.Rooted roots placed srcs) (hap : Node.Apart roots)
    (hagree : Node.HrefsAgree roots) (hc : (⟨d.model, []⟩ : Draft).Checked roots roots)
    {n c : Node} (hn : n ∈ Node.preorderAll roots)
    (hchild : c ∈ n.children "ownedAttribute" ++ n.children "ownedEnd") {href : String}
    (hhref : c.libraryHref? = some href) {h : Handle} (hl : d.model.lookup href = some h) :
    ∃ kind, c.TypedBy (.ofRoots roots) (.library href kind) ∧
      srcs[h]? = some (.library href kind) := by
  have hforeign : href ∉ Node.ids roots := fun hid => hap.foreign href hid
    (Node.mem_libraryHrefs hn hchild hhref)
  obtain ⟨kind, hkind, htext⟩ := (hc.libraries href h hl).resolve_left hforeign
  refine ⟨kind, ?_, ?_⟩
  · obtain ⟨-, ref, href, -⟩ := Node.libraryHref?_eq_some.mp hhref
    have hstated := Node.mem_libraryTypes hn hchild (Node.libraryType?_eq_some hhref href)
    have hsame : ref.kind? = some kind.text := hagree _ hstated _ hkind rfl
    exact .library hhref href (TypeKind.bind_ofText?_eq_some.mpr hsame)
  · obtain ⟨src, hsrc, hkey⟩ := hr.traced.keyed href h hl
    cases src with
    | node m =>
      have hmem := (hr.traced.known h _ hsrc).reached.mem
      exact absurd (Node.mem_ids hmem hkey) hforeign
    | library href' kind' =>
      cases hkey
      have he := List.getElem?_eq_getElem (hr.traced.lt_size hsrc)
      have hh : _ = _ := hr.traced.heads h _ _ hsrc he
      rw [Model.element_of_getElem? he, hh, TypeKind.kindText_form] at htext
      rw [hsrc, TypeKind.text_inj htext]

theorem readFrom (hr : d.Rooted roots placed srcs) (hap : Node.Apart roots)
    (hagree : Node.HrefsAgree roots) (hp : placed.map Prod.fst = roots)
    (hc : (⟨d.model, []⟩ : Draft).Checked roots roots) : d.model.ReadFrom roots srcs where
  tops := by
    have hpairs : List.Forall₂ (fun n (h : Handle) => srcs[h]? = some (.node n))
        (placed.map Prod.fst) (placed.map Prod.snd) := by
      rw [List.forall₂_map_left_iff, List.forall₂_map_right_iff, List.forall₂_same]
      intro p hmem
      exact hr.source_of_placed hap (hp ▸ List.mem_map_of_mem hmem) hmem
    rwa [hp, ← hr.handles] at hpairs
  heads h src hsrc := by
    have he := List.getElem?_eq_getElem (hr.traced.lt_size hsrc)
    rw [Model.element_of_getElem? he]
    exact hr.traced.heads h src _ hsrc he
  registered := (hr.traced.settled hap).registered
  members h n hsrc := by
    obtain ⟨e, he, -, hm⟩ := hr.states_of_source hap hsrc
    rwa [Model.element_of_getElem? he]
  types h n hsrc c hchild owner p hs := by
    have hres := hr.resolves_of_source hap hc hsrc
    have hn := (hr.traced.known h _ hsrc).reached.mem
    obtain ⟨key, hkey, hl⟩ := hs.type
    cases hid : c.attr? "type" with
    | some id =>
      obtain ⟨m, hm⟩ := hres.types c hchild id hid
      obtain rfl : key = id := by simpa [Node.typeKey?, hid, eq_comm] using hkey
      refine ⟨.node m, hm, ?_⟩
      cases hm with
      | node key' found _ =>
        obtain rfl := Option.some.inj (hid.symm.trans key')
        exact hr.source_of_lookup hap found hl
    | none =>
      have hhref : c.libraryHref? = some key := by
        simpa [Node.libraryHref?, Node.typeKey?, hid] using hkey
      obtain ⟨kind, htyped, hlibrary⟩ := hr.source_of_library hap hagree hc hn
        (Node.mem_children_of_propertyNodes hchild) hhref hl
      exact ⟨_, htyped, hlibrary⟩
  generals h n hsrc hclass c hchild g hs := by
    have hres := hr.resolves_of_source hap hc hsrc
    obtain ⟨general, hspec⟩ := hres.generals hclass c hchild
    obtain ⟨key, t, hkey, hl, -, ht⟩ := hs.target
    refine ⟨general, t, hspec, ht, ?_⟩
    cases hspec with
    | node key' found _ =>
      obtain rfl := Option.some.inj (hkey.symm.trans key')
      exact hr.source_of_lookup hap found hl

end Draft.Rooted

namespace Model

variable {roots : List Node} {srcs : List Source} {m : Model}

theorem exists_readFrom (hap : Node.Apart roots) (hagree : Node.HrefsAgree roots)
    (h : Model.ofNodes (.ofRoots roots) roots = .ok m) : ∃ srcs, m.ReadFrom roots srcs := by
  have hc := Draft.checked_of_ofNodes hap h
  obtain ⟨d, rfl, placed, srcs, hr, hp⟩ := Draft.rooted_of_ofNodes h
  exact ⟨srcs, hr.readFrom hap hagree hp hc⟩

namespace ReadFrom

variable {h : Handle} {n : Node}

/-- The element of a node has a form of the kind that the node states. -/
theorem classifier (hm : m.ReadFrom roots srcs) (hsrc : srcs[h]? = some (.node n))
    (hclass : n.isClass = true) : ∃ isInterface attributes gs,
      (m.element h).form = .classifier isInterface attributes gs ∧
      List.Forall₂ (Node.StatesProperty m none) n.propertyNodes attributes ∧
      List.Forall₂ (Node.StatesGeneralization m) (n.children "generalization") gs := by
  have hd : n.Declares (m.element h) := hm.heads h _ hsrc
  obtain ⟨isInterface, attributes, gs, hf⟩ := hd.classifier hclass
  have hmembers := hm.members h n hsrc
  simp only [Node.StatesMembers, hf] at hmembers
  rw [Node.propertyNodes_of_isClass hclass]
  exact ⟨isInterface, attributes, gs, hf, hmembers.1, hmembers.2⟩

theorem association (hm : m.ReadFrom roots srcs) (hsrc : srcs[h]? = some (.node n))
    (ha : n.isAssociation = true) : ∃ first second,
      (m.element h).form = .association first second n.navigableTokens ∧
      List.Forall₂ (Node.StatesProperty m (some h)) n.propertyNodes [first, second] := by
  have hd : n.Declares (m.element h) := hm.heads h _ hsrc
  have hmembers := hm.members h n hsrc
  have hkind : (m.element h).form.kindText = "uml:Association" := by
    have hk : n.kind? = some "uml:Association" := by simpa [Node.isAssociation] using ha
    exact (Option.some.inj (hk.symm.trans hd.kind)).symm
  rw [Node.propertyNodes_of_isAssociation ha]
  cases hf : (m.element h).form with
  | association first second tokens =>
    simp only [Node.StatesMembers, hf] at hmembers
    obtain ⟨hends, rfl⟩ := hmembers
    exact ⟨first, second, rfl, hends⟩
  | classifier isInterface _ _ => cases isInterface <;> simp [hf, Form.kindText] at hkind
  | _ => simp [hf, Form.kindText] at hkind

theorem exists_property (hm : m.ReadFrom roots srcs) (hsrc : srcs[h]? = some (.node n)) {c : Node}
    (hc : c ∈ n.propertyNodes) : ∃ owner p, c.StatesProperty m owner p := by
  cases hclass : n.isClass with
  | true =>
    obtain ⟨_, attributes, _, -, hs, -⟩ := hm.classifier hsrc hclass
    obtain ⟨p, -, hp⟩ := exists_of_forall₂ hs hc
    exact ⟨none, p, hp⟩
  | false =>
    cases ha : n.isAssociation with
    | true =>
      obtain ⟨first, second, -, hs⟩ := hm.association hsrc ha
      obtain ⟨p, -, hp⟩ := exists_of_forall₂ hs hc
      exact ⟨some h, p, hp⟩
    | false => simp [Node.propertyNodes, hclass, ha] at hc

theorem sound (hm : m.ReadFrom roots srcs) (hsrc : srcs[h]? = some (.node n)) :
    n.Sound (IdIndex.ofRoots roots).get? := by
  have hd : n.Declares (m.element h) := hm.heads h _ hsrc
  refine ⟨?_, fun htype => ?_, fun hk c hc => ?_, fun ha => ?_, fun c hc => ?_,
    fun hclass c hc => ?_⟩
  · unfold Node.isAssociation TypeKind.ofNode?
    rw [hd.kind]
    cases (m.element h).form with
    | classifier isInterface _ _ => cases isInterface <;> simp [Form.kindText, TypeKind.ofText?]
    | _ => simp [Form.kindText, TypeKind.ofText?]
  · rcases hd.name with hname | ⟨ha, -⟩
    · simp [hname]
    · simp [TypeKind.ofNode?, ha, TypeKind.ofText?] at htype
  · have htext := Option.some.inj (hk.symm.trans hd.kind)
    cases hf : (m.element h).form with
    | enumeration ls =>
      obtain ⟨l, -, hl⟩ := exists_of_forall₂ (hd.literals ls hf) hc
      simp [hl.name]
    | classifier isInterface _ _ => cases isInterface <;> simp [hf, Form.kindText] at htext
    | _ => simp [hf, Form.kindText] at htext
  · obtain ⟨first, second, -, hs⟩ := hm.association hsrc ha
    rw [Node.propertyNodes_of_isAssociation ha] at hs
    exact hs.length_eq
  · obtain ⟨owner, p, hp⟩ := hm.exists_property hsrc hc
    obtain ⟨src, htyped, -⟩ := hm.types h n hsrc c hc owner p hp
    refine ⟨?_, ?_⟩
    · simp [Node.typeSource?_eq_some.mpr htyped]
    · simp [Node.readMultiplicity_eq_ok.mp hp.multiplicity]
  · obtain ⟨_, _, gs, -, -, hs⟩ := hm.classifier hsrc hclass
    obtain ⟨g, -, hg⟩ := exists_of_forall₂ hs hc
    obtain ⟨general, t, hspec, -⟩ := hm.generals h n hsrc hclass c hc g hg
    simp [Node.generalNode?_eq_some.mpr hspec]

/-- Every node that is needed has an element. -/
theorem exists_of_needed (hm : m.ReadFrom roots srcs)
    (hn : n.Needed (IdIndex.ofRoots roots).get? roots) :
    ∃ h : Handle, srcs[h]? = some (.node n) := by
  induction hn with
  | root mem =>
    obtain ⟨h, -, hsrc⟩ := exists_of_forall₂ hm.tops mem
    exact ⟨h, hsrc⟩
  | type _ child key found ih =>
    obtain ⟨h, hsrc⟩ := ih
    obtain ⟨owner, p, hp⟩ := hm.exists_property hsrc child
    obtain ⟨src, htyped, htarget⟩ := hm.types h _ hsrc _ child owner p hp
    cases htyped with
    | node key' found' _ =>
      obtain rfl := Option.some.inj (key.symm.trans key')
      obtain rfl := Option.some.inj (found.symm.trans found')
      exact ⟨p.type, htarget⟩
    | library hhref _ _ => cases key.symm.trans (Node.libraryHref?_eq_some.mp hhref).1
  | general _ isClass child key found ih =>
    obtain ⟨h, hsrc⟩ := ih
    obtain ⟨_, _, gs, -, -, hs⟩ := hm.classifier hsrc isClass
    obtain ⟨g, -, hg⟩ := exists_of_forall₂ hs child
    obtain ⟨general, t, hspec, -, htarget⟩ := hm.generals h _ hsrc isClass _ child g hg
    cases hspec with
    | node key' found' _ =>
      obtain rfl := Option.some.inj (key.symm.trans key')
      obtain rfl := Option.some.inj (found.symm.trans found')
      exact ⟨t, htarget⟩

end ReadFrom

/-- A class model can be read just when all nodes that it needs are sound. -/
theorem exists_ofNodes_iff (hap : Node.Apart roots) (hagree : Node.HrefsAgree roots) :
    (∃ m, Model.ofNodes (.ofRoots roots) roots = .ok m) ↔
      ∀ n : Node, n.Needed (IdIndex.ofRoots roots).get? roots →
        n.Sound (IdIndex.ofRoots roots).get? := by
  constructor
  · rintro ⟨m, h⟩ n hn
    obtain ⟨srcs, hm⟩ := exists_readFrom hap hagree h
    obtain ⟨a, hsrc⟩ := hm.exists_of_needed hn
    exact hm.sound hsrc
  · exact exists_ofNodes

end Model
end ClassGrammar
