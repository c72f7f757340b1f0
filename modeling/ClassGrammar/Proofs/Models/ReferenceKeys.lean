import ClassGrammar.Proofs.Models.FinishedModels

/-! What the references in a class model lead to. Each of them leads to an element whose source has
the key that the node states, and the index has a node of the right sort for this key. -/
namespace ClassGrammar

namespace Source

/-- The metaclass that a source states for its element. -/
def kindText? : Source → Option String
  | node n => n.kind?
  | library _ kind => some kind.text

theorem Heads.kindText {src : Source} {e : Element} (h : src.Heads e) :
    src.kindText? = some e.form.kindText := by
  cases src with
  | node n => exact h.kind
  | library href kind =>
    obtain rfl := h
    exact congrArg some (TypeKind.kindText_form kind []).symm

end Source

namespace Model

/-- Whether the element at a handle is that of a source with the key, as to its metaclass. -/
def Bears (roots : List Node) (m : Model) (key : String) (h : Handle) : Prop :=
  ∃ (src : Source) (e : Element), src.Reached roots ∧ src.key? = some key ∧
    m.elements[h]? = some e ∧ src.kindText? = some e.form.kindText

/-- Whether elements stay where they are and keep their metaclasses. -/
def KeepsForms (m m' : Model) : Prop :=
  ∀ (h : Handle) (e : Element), m.elements[h]? = some e →
    ∃ e', m'.elements[h]? = some e' ∧ e'.form.kindText = e.form.kindText

variable {roots : List Node} {m m' : Model} {key : String} {h : Handle}

theorem KeepsForms.trans {m'' : Model} (hm : m.KeepsForms m') (hm' : m'.KeepsForms m'') :
    m.KeepsForms m'' := by
  intro h e he
  obtain ⟨e', he', hk'⟩ := hm h e he
  obtain ⟨e'', he'', hk''⟩ := hm' h e' he'
  exact ⟨e'', he'', hk''.trans hk'⟩

theorem keepsForms_setMembers (m : Model) (h : Handle) (attributes : List Property)
    (generalizations : List Generalization) :
    m.KeepsForms (m.setMembers h attributes generalizations) := by
  intro k e he
  refine ⟨_, by rw [getElem?_setMembers, he]; rfl, ?_⟩
  split
  · exact e.kindText_withMembers attributes generalizations
  · rfl

theorem Bears.mono (hb : m.Bears roots key h) (hm : m.KeepsForms m') : m'.Bears roots key h := by
  obtain ⟨src, e, hsrc, hkey, he, hkind⟩ := hb
  obtain ⟨e', he', hkind'⟩ := hm h e he
  exact ⟨src, e', hsrc, hkey, he', hkind' ▸ hkind⟩

theorem Bears.lt_size (hb : m.Bears roots key h) : h < m.size := by
  obtain ⟨-, e, -, -, he, -⟩ := hb
  exact (List.getElem?_eq_some_iff.mp he).1

end Model

namespace Node

/-- What is known of the type of a property: its element bears the key that the node states, and
when the key is an identifier, the index has a type for it. -/
structure Types (roots : List Node) (m : Model) (c : Node) (h : Handle) : Prop where
  bears : ∃ key, c.typeKey? = some key ∧ m.Bears roots key h
  resolved : ∀ id, c.attr? "type" = some id → ∃ n, c.TypedBy (.ofRoots roots) (.node n)

/-- What is known of the target of a generalization. -/
structure Generalizes (roots : List Node) (m : Model) (c : Node) (h : Handle) : Prop where
  bears : ∃ key, c.attr? "general" = some key ∧ m.Bears roots key h
  resolved : ∃ n, c.Specializes (.ofRoots roots) (.node n)

variable {roots : List Node} {m m' : Model} {c : Node} {h : Handle}

theorem Types.mono (ht : c.Types roots m h) (hm : m.KeepsForms m') : c.Types roots m' h where
  bears := by
    obtain ⟨key, hkey, hb⟩ := ht.bears
    exact ⟨key, hkey, hb.mono hm⟩
  resolved := ht.resolved

theorem Generalizes.mono (hg : c.Generalizes roots m h) (hm : m.KeepsForms m') :
    c.Generalizes roots m' h where
  bears := by
    obtain ⟨key, hkey, hb⟩ := hg.bears
    exact ⟨key, hkey, hb.mono hm⟩
  resolved := hg.resolved

theorem TypedBy.isType {ix : IdIndex} {src : Source} (h : c.TypedBy ix src) : src.IsType := by
  cases h with
  | node _ _ isType => exact Option.isSome_iff_exists.mpr ⟨_, isType⟩
  | library _ _ _ => trivial

theorem Cites.isType {ix : IdIndex} {src : Source} (h : c.Cites ix src) : src.IsType := by
  rcases h with ⟨c', -, htyped⟩ | ⟨c', -, hspec⟩
  · exact htyped.isType
  · cases hspec with
    | node _ _ isClass =>
      obtain ⟨kind, hk, -⟩ := isClass_eq_true.mp isClass
      exact Option.isSome_iff_exists.mpr ⟨kind, hk⟩

end Node

/-- Whether the members of an element refer as the nodes that they have been read from. -/
structure Element.Refers (roots : List Node) (m : Model) (e : Element) : Prop where
  types : ∀ p ∈ e.properties, ∃ n ∈ Node.preorderAll roots,
    ∃ c ∈ n.children "ownedAttribute" ++ n.children "ownedEnd", c.Types roots m p.type
  targets : ∀ g ∈ e.generalizations, ∀ t ∈ g.targets, ∃ c : Node, c.Generalizes roots m t

namespace Element

variable {roots : List Node} {m m' : Model} {e : Element}

theorem Refers.mono (hr : e.Refers roots m) (hm : m.KeepsForms m') : e.Refers roots m' where
  types p hp := by
    obtain ⟨n, hn, c, hc, ht⟩ := hr.types p hp
    exact ⟨n, hn, c, hc, ht.mono hm⟩
  targets g hg t ht := by
    obtain ⟨c, hc⟩ := hr.targets g hg t ht
    exact ⟨c, hc.mono hm⟩

theorem Bare.refers (hb : e.Bare) : e.Refers roots m where
  types p hp := by simp [hb.1] at hp
  targets g hg := by simp [hb.2] at hg

theorem Refers.withMembers {attributes : List Property} {gs : List Generalization}
    (hr : e.Refers roots m)
    (types : ∀ p ∈ attributes, ∃ n ∈ Node.preorderAll roots,
      ∃ c ∈ n.children "ownedAttribute" ++ n.children "ownedEnd", c.Types roots m p.type)
    (targets : ∀ g ∈ gs, ∀ t ∈ g.targets, ∃ c : Node, c.Generalizes roots m t) :
    (e.withMembers attributes gs).Refers roots m := by
  unfold Element.withMembers
  split
  · exact ⟨types, targets⟩
  · exact hr

end Element

namespace Draft

theorem Adds.keepsForms {src : Source} {d d' : Draft} (ha : d.Adds src d') :
    d.model.KeepsForms d'.model := fun _ e he =>
  ⟨e, (ha.getElem? (List.getElem?_eq_some_iff.mp he).1).trans he, rfl⟩

theorem Grows.keepsForms {P : Source → Prop} {d d' : Draft} (hg : d.Grows P d') :
    d.model.KeepsForms d'.model := by
  induction hg with
  | refl => exact fun _ e he => ⟨e, he, rfl⟩
  | tail _ hs ih =>
    obtain ⟨src, -, -, ha⟩ := hs
    exact ih.trans ha.keepsForms

/-- Whether the members of all elements of a draft refer as their nodes. -/
def Refers (roots : List Node) (d : Draft) : Prop :=
  ∀ (h : Handle) (e : Element), d.model.elements[h]? = some e → e.Refers roots d.model

namespace Traced

variable {roots : List Node} {placed : List (Node × Handle)} {current : List Handle}
  {srcs : List Source} {d : Draft} {owner : Option Handle} {c n : Node} {p : Property}
  {g : Generalization}

theorem bears (ht : d.Traced roots placed current srcs) {key : String} {h : Handle}
    (hl : d.model.lookup key = some h) : d.model.Bears roots key h := by
  obtain ⟨src, hsrc, hkey⟩ := ht.keyed key h hl
  have he := List.getElem?_eq_getElem (ht.lt_size hsrc)
  exact ⟨src, _, (ht.known h src hsrc).reached, hkey, he, (ht.heads h src _ hsrc he).kindText⟩

theorem types (ht : d.Traced roots placed current srcs) (hs : c.StatesProperty d.model owner p)
    (hr : ∀ id, c.attr? "type" = some id → ∃ n, c.TypedBy (.ofRoots roots) (.node n)) :
    c.Types roots d.model p.type where
  bears := by
    obtain ⟨key, hkey, hl⟩ := hs.type
    exact ⟨key, hkey, ht.bears hl⟩
  resolved := hr

theorem generalizes (ht : d.Traced roots placed current srcs)
    (hs : c.StatesGeneralization d.model g)
    (hr : ∃ n, c.Specializes (.ofRoots roots) (.node n)) :
    ∀ t ∈ g.targets, c.Generalizes roots d.model t := by
  intro t hmem
  obtain ⟨key, h, hkey, hl, -, htargets⟩ := hs.target
  rw [htargets, List.mem_singleton] at hmem
  subst hmem
  exact ⟨⟨key, hkey, ht.bears hl⟩, hr⟩

end Traced

namespace Refers

variable {roots : List Node} {placed : List (Node × Handle)} {srcs : List Source} {d d' : Draft}

theorem start (roots : List Node) : ({} : Draft).Refers roots := fun _ _ he => by cases he

theorem adds {src : Source} (hr : d.Refers roots) (ha : d.Adds src d')
    (hnew : ∀ e, d'.model.elements[d.model.size]? = some e → e.Refers roots d'.model) :
    d'.Refers roots := by
  intro h e he
  rcases Nat.lt_or_ge h d.model.size with hlt | hge
  · rw [ha.getElem? hlt] at he
    exact (hr h e he).mono ha.keepsForms
  · have hlt : h < d'.model.size := (List.getElem?_eq_some_iff.mp he).1
    rw [ha.size] at hlt
    obtain rfl : h = d.model.size := Nat.le_antisymm (Nat.le_of_lt_succ hlt) hge
    exact hnew e he

theorem grows {P : Source → Prop} (hr : d.Refers roots) (hg : d.Grows P d')
    (hp : ∀ src, P src → src.IsType) : d'.Refers roots := by
  induction hg with
  | refl => exact hr
  | tail _ hs ih =>
    obtain ⟨src, hsrc, -, ha⟩ := hs
    exact ih.adds ha fun e he => (ha.bare (hp src hsrc) e he).refers

theorem setMembers {h : Handle} {attributes : List Property} {gs : List Generalization}
    (hr : d.Refers roots)
    (types : ∀ p ∈ attributes, ∃ n ∈ Node.preorderAll roots,
      ∃ c ∈ n.children "ownedAttribute" ++ n.children "ownedEnd", c.Types roots d.model p.type)
    (targets : ∀ g ∈ gs, ∀ t ∈ g.targets, ∃ c : Node, c.Generalizes roots d.model t) :
    { d with model := d.model.setMembers h attributes gs }.Refers roots := by
  intro k e he
  rw [Model.getElem?_setMembers] at he
  obtain ⟨e₀, he₀, rfl⟩ := Option.map_eq_some_iff.mp he
  refine Element.Refers.mono ?_ (d.model.keepsForms_setMembers h attributes gs)
  split
  · exact (hr k e₀ he₀).withMembers types targets
  · exact hr k e₀ he₀

theorem addRoot (hr : d.Refers roots) (h : Handle) :
    { d with model := d.model.addRoot h }.Refers roots := fun k e he =>
  (hr k e he).mono fun _ e he => ⟨e, he, rfl⟩

theorem fill {h : Handle} {n : Node} {rest : List (Handle × Node)}
    (ht : d.Traced roots placed [] srcs) (hr : d.Refers roots) (hq : d.queue = (h, n) :: rest)
    (hf : fillMembers (.ofRoots roots) { d with queue := rest } h n = .ok d') :
    d'.Refers roots := by
  obtain ⟨hsrc, hclass⟩ := ht.queued h n (by rw [hq]; exact List.mem_cons_self)
  have hopen := ht.pop hq
  have hresolves := resolves_of_fillMembers hclass hf
  obtain ⟨d₁, attributes, gs, hg, has, hgs, rfl⟩ := fillMembers_spec hopen.bounded hf
  have hn := (ht.known h _ hsrc).reached.mem
  obtain ⟨more, ht₁⟩ := hopen.grows (hg.mono fun _ hsrc => hsrc.cited hn)
  have hr₁ : d₁.Refers roots := Refers.grows (d := { d with queue := rest }) hr hg
    fun _ hsrc => hsrc.isType
  refine hr₁.setMembers (fun p hp => ?_) fun g hg t hmem => ?_
  · obtain ⟨c, hc, hs⟩ := exists_of_forall₂ has.flip hp
    rw [← Node.propertyNodes_of_isClass hclass] at hc
    exact ⟨n, hn, c, Node.mem_children_of_propertyNodes hc, ht₁.types hs (hresolves.types c hc)⟩
  · obtain ⟨c, hc, hs⟩ := exists_of_forall₂ hgs.flip hg
    exact ⟨c, ht₁.generalizes hs (hresolves.generals hclass c hc) t hmem⟩

/-- The ends of an association refer when it is added, after their types. -/
theorem place {position : Nat} {n : Node} {h : Handle} (ht : d.Traced roots placed [] srcs)
    (hr : d.Refers roots) (hn : n ∈ roots)
    (hd : rootFor (.ofRoots roots) d position n = .ok (d', h)) : d'.Refers roots := by
  have hmem := Node.mem_preorderAll_of_mem hn
  cases rootFor_places ht.bounded hd with
  | known _ _ => exact hr
  | type isType _ adds => exact hr.adds adds fun e he => (adds.bare isType e he).refers
  | @association d₁ _ e kind lacks ends adds element states =>
    have hassociation : n.isAssociation = true := by simpa [Node.isAssociation] using kind
    have hclass : n.isClass = false := by
      simp [Node.isClass, Node.ofNode?_of_isAssociation hassociation]
    have hresolves := resolves_of_rootFor hd lacks hclass
    have hr₁ : d₁.Refers roots := hr.grows ends <| by
      rintro src ⟨c, hc, htyped⟩
      exact htyped.isType
    have hcited : d.Grows (Source.Cited roots) d₁ := ends.mono <| by
      rintro src ⟨c, hc, htyped⟩
      exact htyped.cited hmem (List.mem_append_right _ hc)
    obtain ⟨more, ht₁⟩ := ht.grows hcited
    refine hr₁.adds adds fun e' he' => ?_
    obtain rfl : e = e' := Option.some.inj (element.symm.trans he')
    have hkind : some e.form.kindText = some "uml:Association" :=
      ((adds.heads element).kindText).symm.trans kind
    obtain ⟨first, second, tokens, hform⟩ : ∃ first second tokens,
        e.form = .association first second tokens := by
      cases hf : e.form with
      | association first second tokens => exact ⟨first, second, tokens, rfl⟩
      | classifier isInterface _ _ => cases isInterface <;> simp [hf, Form.kindText] at hkind
      | _ => simp [hf, Form.kindText] at hkind
    simp only [Node.StatesMembers, hform] at states
    refine ⟨fun p hp => ?_, fun g hg => by simp [Element.generalizations, hform] at hg⟩
    simp only [Element.properties, hform] at hp
    obtain ⟨c, hc, hs⟩ := exists_of_forall₂ states.1.flip hp
    have hc' := hc
    rw [← Node.propertyNodes_of_isAssociation hassociation] at hc'
    exact ⟨n, hmem, c, List.mem_append_right _ hc,
      (ht₁.types hs (hresolves.types c hc')).mono adds.keepsForms⟩

end Refers

/-- At the end of a run the members of all elements refer as their nodes. -/
theorem refers_of_ofNodes {roots : List Node} {m : Model}
    (h : Model.ofNodes (.ofRoots roots) roots = .ok m) : (⟨m, []⟩ : Draft).Refers roots := by
  obtain ⟨d, hd, rfl⟩ := Model.ofNodes_eq_ok.mp h
  obtain ⟨⟨-, hr⟩, -⟩ := addRoots_run
    (I := fun _ d => (∃ placed srcs, d.Traced roots placed [] srcs) ∧ d.Refers roots)
    (fun _ d _ n h d₁ ⟨⟨placed, srcs, ht⟩, hr⟩ hn h₁ => by
      obtain ⟨more, ht₁, -, -⟩ := ht.places hn (rootFor_places ht.bounded h₁)
      exact ⟨⟨_, _, ht₁.addRoot h⟩, (hr.place ht hn h₁).addRoot h⟩)
    (fun _ d h n rest d' ⟨⟨placed, srcs, ht⟩, hr⟩ hq hf => by
      obtain ⟨more, ht₁, -⟩ := ht.fill hq hf
      exact ⟨⟨_, _, ht₁⟩, hr.fill ht hq hf⟩)
    [] ⟨⟨[], [], Traced.start roots⟩, Refers.start roots⟩ rfl
    (List.Subset.refl roots) hd
  exact hr

end Draft

end ClassGrammar
