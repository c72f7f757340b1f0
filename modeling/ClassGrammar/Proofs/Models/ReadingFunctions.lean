import ClassGrammar.Proofs.General.Outcome
import ClassGrammar.Proofs.Models.ElementSources

/-! What each reading function gives: the part that it reads, in terms of the node, and the sources
of the elements that the draft gains on the way. -/
namespace ClassGrammar

theorem requiredName_eq_ok {n : Node} {noun name : String} :
    requiredName n noun = .ok name ↔ n.name? = some name := by
  unfold requiredName
  split <;> simp_all

theorem bare_of_readElement {kind : TypeKind} {n : Node} {e : Element}
    (h : readElement kind n = .ok e) : e.Bare := by
  obtain ⟨ls, -, h⟩ := outcome_bind.mp h
  obtain ⟨name, -, h⟩ := outcome_bind.mp h
  cases h
  exact Element.bare_of_form rfl

theorem readLiteral_states {c : Node} {l : Literal} (h : readLiteral c = .ok l) :
    c.StatesLiteral l := by
  obtain ⟨name, hn, hl⟩ := outcome_bind.mp h
  cases hl
  exact ⟨rfl, requiredName_eq_ok.mp hn, rfl⟩

theorem readLiterals_state {cs : List Node} {ls : List Literal}
    (h : cs.mapM readLiteral = .ok ls) : List.Forall₂ Node.StatesLiteral cs ls := by
  induction cs generalizing ls with
  | nil =>
    cases h
    exact .nil
  | cons c rest ih =>
    rw [List.mapM_cons] at h
    obtain ⟨l, hl, h⟩ := outcome_bind.mp h
    obtain ⟨ls', hls, h⟩ := outcome_bind.mp h
    cases h
    exact .cons (readLiteral_states hl) (ih hls)

theorem readElement_declares {kind : TypeKind} {n : Node} {e : Element}
    (hk : TypeKind.ofNode? n = some kind) (h : readElement kind n = .ok e) : n.Declares e := by
  obtain ⟨ls, hls, h⟩ := outcome_bind.mp h
  obtain ⟨name, hn, h⟩ := outcome_bind.mp h
  cases h
  refine ⟨?_, rfl, .inl (requiredName_eq_ok.mp hn), rfl, fun ls' he => ?_⟩
  · rw [TypeKind.kindText_form]
    exact TypeKind.kind?_of_ofNode? hk
  · cases kind <;> cases he
    exact readLiterals_state hls

theorem declares_association {n : Node} {first second : Property} {tokens : List String}
    (hk : n.kind? = some "uml:Association") :
    n.Declares ⟨n.id?, n.name?.getD "", .ofText (n.attr? "visibility"),
      .association first second tokens⟩ := by
  refine ⟨hk, rfl, ?_, rfl, fun ls he => by cases he⟩
  cases hname : n.name? with
  | some name => exact .inl rfl
  | none => exact .inr ⟨hk, rfl, rfl⟩

namespace Node

/-- The sources that a property can refer to. -/
inductive TypedBy (ix : IdIndex) (c : Node) : Source → Prop where
  | node {id : String} {n : Node} {kind : TypeKind} (key : c.attr? "type" = some id)
      (found : ix.get? id = some n) (isType : TypeKind.ofNode? n = some kind) :
      TypedBy ix c (.node n)
  | library {ref : Node} {href : String} {kind : TypeKind} (key : c.libraryHref? = some href)
      (child : c.child? "type" = some ref) (isType : ref.kind?.bind TypeKind.ofText? = some kind) :
      TypedBy ix c (.library href kind)

/-- The sources that a generalization can refer to. -/
inductive Specializes (ix : IdIndex) (c : Node) : Source → Prop where
  | node {id : String} {n : Node} (key : c.attr? "general" = some id)
      (found : ix.get? id = some n) (isClass : n.isClass = true) : Specializes ix c (.node n)

/-- The sources that the members of a class refer to. -/
def Cites (ix : IdIndex) (n : Node) (src : Source) : Prop :=
  (∃ c ∈ n.children "ownedAttribute", c.TypedBy ix src) ∨
    ∃ c ∈ n.children "generalization", c.Specializes ix src

/-- A property becomes an end when it gets an association. -/
theorem StatesProperty.withOwner {m : Model} {c : Node} {p : Property} {owner : Option Handle}
    (h : c.StatesProperty m none p) :
    c.StatesProperty m owner { p with association := owner } :=
  ⟨h.id, h.type, h.bound, h.name, h.visibility, h.multiplicity, h.aggregation, rfl⟩

end Node

theorem IdIndex.resolve_eq_ok {ix : IdIndex} {id context : String} {n : Node} :
    ix.resolve id context = .ok n ↔ ix.get? id = some n := by
  unfold resolve
  split <;> simp_all

namespace Draft

/-- A type is either known under its identifier or added at the end. -/
theorem typeFor_spec {d d' : Draft} {kind : TypeKind} {n : Node} {h : Handle}
    (hk : TypeKind.ofNode? n = some kind) (hd : d.typeFor kind n = .ok (d', h)) :
    (d' = d ∧ ∃ key, n.id? = some key ∧ d.model.lookup key = some h) ∨
      (h = d.model.size ∧ d.Lacks (.node n) ∧ d.Adds (.node n) d') := by
  unfold typeFor at hd
  split at hd
  next a ha =>
    cases hd
    obtain ⟨key, hkey, hl⟩ := Option.bind_eq_some_iff.mp ha
    exact .inl ⟨rfl, key, hkey, hl⟩
  next hnone =>
    obtain ⟨e, he, hd⟩ := outcome_bind.mp hd
    cases hd
    have hid : e.id = n.id? := id_of_readElement he
    refine .inr ⟨rfl, fun key hkey => ?_, ⟨e, readElement_declares hk he, rfl⟩,
      fun _ e' he' => ?_, rfl, fun key => ?_, ?_⟩
    · simp only [Source.key?] at hkey
      simpa [hkey] using hnone
    · obtain rfl : e = e' := Option.some.inj (List.getElem?_concat_length.symm.trans he')
      exact bare_of_readElement he
    · rw [Model.lookup_add, hid]
      rfl
    · cases kind <;> simp [Source.openings, Node.isClass, hk, TypeKind.isClass]

theorem typeFor_lookup {d d' : Draft} {kind : TypeKind} {n : Node} {h : Handle}
    (hk : TypeKind.ofNode? n = some kind) (hd : d.typeFor kind n = .ok (d', h)) {key : String}
    (hkey : n.id? = some key) : d'.model.lookup key = some h := by
  rcases typeFor_spec hk hd with ⟨rfl, key', hkey', hl⟩ | ⟨rfl, -, hadds⟩
  · obtain rfl : key = key' := Option.some.inj (hkey.symm.trans hkey')
    exact hl
  · rw [hadds.lookup]
    exact if_pos hkey

theorem typeFor_grows {P : Source → Prop} {d d' : Draft} {kind : TypeKind} {n : Node} {h : Handle}
    (hk : TypeKind.ofNode? n = some kind) (hp : P (.node n))
    (hd : d.typeFor kind n = .ok (d', h)) : d.Grows P d' := by
  rcases typeFor_spec hk hd with ⟨rfl, -⟩ | ⟨-, hl, hadds⟩
  · exact .refl
  · exact .of_adds hp hl hadds

/-- A library type is either known under its reference or added at the end. -/
theorem libraryType_spec {d d' : Draft} {href : String} {kind : Option String} {owner : Node}
    {h : Handle} (hd : d.libraryType href kind owner = .ok (d', h)) :
    (d' = d ∧ d.model.lookup href = some h) ∨
      ∃ k, kind.bind TypeKind.ofText? = some k ∧ h = d.model.size ∧
        d.Lacks (.library href k) ∧ d.Adds (.library href k) d' := by
  unfold libraryType at hd
  split at hd
  next a ha =>
    cases hd
    exact .inl ⟨rfl, ha⟩
  next hnone =>
    split at hd
    next k hk =>
      cases hd
      refine .inr ⟨k, hk, rfl, fun key hkey => ?_, ⟨_, rfl, rfl⟩, fun _ e he => ?_, rfl,
        fun key => ?_, ?_⟩
      · cases hkey
        exact hnone
      · obtain rfl := Option.some.inj (List.getElem?_concat_length.symm.trans he)
        exact Element.bare_of_form rfl
      · rw [Model.lookup_register, Model.lookup_add]
        simp [Source.key?, eq_comm]
      · simp [Source.openings]
    next => cases hd

theorem propertyType_spec {ix : IdIndex} {d d' : Draft} {c : Node} {h : Handle}
    (hd : propertyType ix d c = .ok (d', h)) :
    d.Grows (c.TypedBy ix) d' ∧ ∃ key, c.typeKey? = some key ∧ d'.model.lookup key = some h := by
  unfold propertyType at hd
  split at hd
  next id hid =>
    obtain ⟨n, hn, hd⟩ := outcome_bind.mp hd
    have hfound := IdIndex.resolve_eq_ok.mp hn
    split at hd
    next kind hk =>
      refine ⟨typeFor_grows hk (.node hid hfound hk) hd, id, by simp only [Node.typeKey?, hid], ?_⟩
      exact typeFor_lookup hk hd (IdIndex.get?_mem hfound).2
    next => cases hd
  next hid =>
    split at hd
    next => cases hd
    next ref href =>
      split at hd
      next => cases hd
      next key hkey =>
        have hlibrary : c.libraryHref? = some key := by
          simp only [Node.libraryHref?, hid, href, Option.bind_some, hkey]
        refine ⟨?_, key, by simp only [Node.typeKey?, hid, href, Option.bind_some, hkey], ?_⟩
        · rcases libraryType_spec hd with ⟨rfl, -⟩ | ⟨k, hk, -, hl, hadds⟩
          · exact .refl
          · exact .of_adds (.library hlibrary href hk) hl hadds
        · rcases libraryType_spec hd with ⟨rfl, hl⟩ | ⟨k, hk, rfl, -, hadds⟩
          · exact hl
          · rw [hadds.lookup]
            exact if_pos rfl

theorem property_spec {ix : IdIndex} {d d' : Draft} {c : Node} {p : Property}
    (hb : d.model.Bounded) (hd : property ix d c = .ok (d', p)) :
    d.Grows (c.TypedBy ix) d' ∧ c.StatesProperty d'.model none p := by
  obtain ⟨⟨d₁, type⟩, ht, hd⟩ := outcome_bind.mp hd
  obtain ⟨multiplicity, hm, hd⟩ := outcome_bind.mp hd
  cases hd
  obtain ⟨hg, key, hkey, hl⟩ := propertyType_spec ht
  exact ⟨hg, rfl, ⟨key, hkey, hl⟩, hg.bounded hb key type hl, rfl, rfl, hm, rfl, rfl⟩

/-- Whether a list of parts is read one after the other. -/
structure ReadsEach {β : Type} (read : Draft → Node → Except Fault (Draft × β))
    (readAll : Draft → List Node → Except Fault (Draft × List β)) : Prop where
  nil : ∀ d, readAll d [] = .ok (d, [])
  cons : ∀ d c rest, readAll d (c :: rest) = do
    let (d, b) ← read d c
    let (d, bs) ← readAll d rest
    return (d, b :: bs)

theorem readsEach_properties (ix : IdIndex) : ReadsEach (property ix) (properties ix) :=
  ⟨fun _ => rfl, fun _ _ _ => rfl⟩

theorem readsEach_generalizations (ix : IdIndex) (specific : Node) :
    ReadsEach (generalization ix specific) (generalizations ix specific) :=
  ⟨fun _ => rfl, fun _ _ _ => rfl⟩

/-- Reading the parts one by one makes the draft grow by what each of them refers to. -/
theorem ReadsEach.spec {β : Type} {P : Node → Source → Prop} {S : Model → Node → β → Prop}
    {read : Draft → Node → Except Fault (Draft × β)}
    {readAll : Draft → List Node → Except Fault (Draft × List β)} (hr : ReadsEach read readAll)
    (keeps : ∀ {m m'}, m.Keeps m' → ∀ {c b}, S m c b → S m' c b)
    (spec : ∀ {d d' c b}, d.model.Bounded → read d c = .ok (d', b) →
      d.Grows (P c) d' ∧ S d'.model c b)
    {d d' : Draft} {cs : List Node} {bs : List β} (hb : d.model.Bounded)
    (hd : readAll d cs = .ok (d', bs)) :
    d.Grows (fun src => ∃ c ∈ cs, P c src) d' ∧ List.Forall₂ (S d'.model) cs bs := by
  induction cs generalizing d bs with
  | nil =>
    rw [hr.nil] at hd
    cases hd
    exact ⟨.refl, .nil⟩
  | cons c rest ih =>
    rw [hr.cons] at hd
    obtain ⟨⟨d₁, b⟩, hp, hd⟩ := outcome_bind.mp hd
    obtain ⟨⟨d₂, bs'⟩, hps, hd⟩ := outcome_bind.mp hd
    cases hd
    obtain ⟨hg, hs⟩ := spec hb hp
    obtain ⟨hg', hs'⟩ := ih (hg.bounded hb) hps
    have hfirst := hg.mono (Q := fun src => ∃ c' ∈ c :: rest, P c' src)
      fun src hsrc => ⟨c, List.mem_cons_self, hsrc⟩
    have hlater := hg'.mono (Q := fun src => ∃ c' ∈ c :: rest, P c' src)
      fun src ⟨c', hc', hsrc⟩ => ⟨c', List.mem_cons_of_mem c hc', hsrc⟩
    -- What the first part states stays while the draft grows by the others.
    exact ⟨hfirst.trans hlater, .cons (keeps hg'.keeps hs) hs'⟩

theorem properties_spec {ix : IdIndex} {d d' : Draft} {cs : List Node} {ps : List Property}
    (hb : d.model.Bounded) (hd : properties ix d cs = .ok (d', ps)) :
    d.Grows (fun src => ∃ c ∈ cs, c.TypedBy ix src) d' ∧
      List.Forall₂ (Node.StatesProperty d'.model none) cs ps :=
  (readsEach_properties ix).spec (P := Node.TypedBy ix) (S := (Node.StatesProperty · none))
    (fun hm => Node.StatesProperty.keeps hm) property_spec hb hd

theorem generalization_spec {ix : IdIndex} {specific : Node} {d d' : Draft} {c : Node}
    {g : Generalization} (hb : d.model.Bounded)
    (hd : generalization ix specific d c = .ok (d', g)) :
    d.Grows (c.Specializes ix) d' ∧ c.StatesGeneralization d'.model g := by
  unfold generalization at hd
  split at hd
  next => cases hd
  next id hid =>
    obtain ⟨n, hn, hd⟩ := outcome_bind.mp hd
    have hfound := IdIndex.resolve_eq_ok.mp hn
    split at hd
    next kind hk =>
      obtain ⟨hk, hclass⟩ := Option.filter_eq_some_iff.mp hk
      obtain ⟨⟨d₁, target⟩, ht, hd⟩ := outcome_bind.mp hd
      cases hd
      have hg : d.Grows (c.Specializes ix) d' :=
        typeFor_grows hk (.node hid hfound (by simpa [Node.isClass, hk] using hclass)) ht
      have hl := typeFor_lookup hk ht (IdIndex.get?_mem hfound).2
      exact ⟨hg, rfl, id, target, hid, hl, hg.bounded hb id target hl, rfl⟩
    next => cases hd

theorem generalizations_spec {ix : IdIndex} {specific : Node} {d d' : Draft} {cs : List Node}
    {gs : List Generalization} (hb : d.model.Bounded)
    (hd : generalizations ix specific d cs = .ok (d', gs)) :
    d.Grows (fun src => ∃ c ∈ cs, c.Specializes ix src) d' ∧
      List.Forall₂ (Node.StatesGeneralization d'.model) cs gs :=
  (readsEach_generalizations ix specific).spec (P := Node.Specializes ix)
    (S := Node.StatesGeneralization) Node.StatesGeneralization.keeps generalization_spec hb hd

/-- Filling a class first makes the draft grow by what its members cite. -/
theorem fillMembers_spec {ix : IdIndex} {d d' : Draft} {h : Handle} {n : Node}
    (hb : d.model.Bounded) (hd : fillMembers ix d h n = .ok d') :
    ∃ d₁ attributes generalizations, d.Grows (n.Cites ix) d₁ ∧
      List.Forall₂ (Node.StatesProperty d₁.model none) (n.children "ownedAttribute") attributes ∧
      List.Forall₂ (Node.StatesGeneralization d₁.model) (n.children "generalization")
        generalizations ∧
      d' = { d₁ with model := d₁.model.setMembers h attributes generalizations } := by
  obtain ⟨⟨d₁, attributes⟩, ha, hd⟩ := outcome_bind.mp hd
  obtain ⟨⟨d₂, gs⟩, hg, hd⟩ := outcome_bind.mp hd
  cases hd
  obtain ⟨hg₁, hs₁⟩ := properties_spec hb ha
  obtain ⟨hg₂, hs₂⟩ := generalizations_spec (hg₁.bounded hb) hg
  have hleft := hg₁.mono (Q := n.Cites ix) fun src h => .inl h
  have hright := hg₂.mono (Q := n.Cites ix) fun src h => .inr h
  exact ⟨d₂, attributes, gs, hleft.trans hright,
    hs₁.imp fun _ _ => Node.StatesProperty.keeps hg₂.keeps, hs₂, rfl⟩

/-- How a top-level node gets the handle of its element. -/
inductive Places (ix : IdIndex) (n : Node) (d : Draft) : Draft → Handle → Prop
  | known {key : String} {h : Handle} (id : n.id? = some key)
      (found : d.model.lookup key = some h) : Places ix n d d h
  | type {d' : Draft} (isType : (TypeKind.ofNode? n).isSome) (lacks : d.Lacks (.node n))
      (adds : d.Adds (.node n) d') : Places ix n d d' d.model.size
  | association {d₁ d' : Draft} {e : Element} (kind : n.kind? = some "uml:Association")
      (lacks : d.Lacks (.node n))
      (ends : d.Grows (fun src => ∃ c ∈ n.children "ownedEnd", c.TypedBy ix src) d₁)
      (adds : d₁.Adds (.node n) d') (element : d'.model.elements[d₁.model.size]? = some e)
      (states : n.StatesMembers d₁.model d₁.model.size e) : Places ix n d d' d₁.model.size

/-- The types of the ends of an association are added before it. -/
theorem associationFor_places {ix : IdIndex} {d d' : Draft} {n : Node} {h : Handle}
    (hb : d.model.Bounded) (hk : n.kind? = some "uml:Association")
    (hd : associationFor ix d n = .ok (d', h)) : Places ix n d d' h := by
  unfold associationFor at hd
  split at hd
  next a ha =>
    cases hd
    obtain ⟨key, hkey, hl⟩ := Option.bind_eq_some_iff.mp ha
    exact .known hkey hl
  next hnone =>
    split at hd
    next a b hends =>
      obtain ⟨⟨d₁, first⟩, ha, hd⟩ := outcome_bind.mp hd
      obtain ⟨⟨d₂, second⟩, hb', hd⟩ := outcome_bind.mp hd
      cases hd
      obtain ⟨hg, hs⟩ := property_spec hb ha
      obtain ⟨hg', hs'⟩ := property_spec (hg.bounded hb) hb'
      have hfirst := hg.mono (Q := fun src => ∃ c ∈ n.children "ownedEnd", c.TypedBy ix src)
        fun src hsrc => ⟨a, by simp [hends], hsrc⟩
      have hlater := hg'.mono (Q := fun src => ∃ c ∈ n.children "ownedEnd", c.TypedBy ix src)
        fun src hsrc => ⟨b, by simp [hends], hsrc⟩
      have hlacks : d.Lacks (.node n) := by
        intro key hkey
        simp only [Source.key?] at hkey
        simpa [hkey] using hnone
      refine .association hk hlacks (hfirst.trans hlater)
        ⟨⟨_, declares_association hk, rfl⟩, fun htype => ?_, rfl, fun key => ?_, ?_⟩
        List.getElem?_concat_length ⟨?_, rfl⟩
      · simp [Source.IsType, TypeKind.ofNode?, hk, TypeKind.ofText?] at htype
      · rw [Model.lookup_add]
        rfl
      · simp [Source.openings, Node.isClass, TypeKind.ofNode?, hk, TypeKind.ofText?]
      · rw [hends]
        exact .cons (hs.keeps hg'.keeps).withOwner (.cons hs'.withOwner .nil)
    next => cases hd

theorem rootFor_places {ix : IdIndex} {d d' : Draft} {position : Nat} {n : Node} {h : Handle}
    (hb : d.model.Bounded) (hd : rootFor ix d position n = .ok (d', h)) : Places ix n d d' h := by
  unfold rootFor at hd
  split at hd
  next kind hk =>
    rcases typeFor_spec hk hd with ⟨rfl, key, hkey, hl⟩ | ⟨rfl, hl, hadds⟩
    · exact .known hkey hl
    · exact .type (by simp [hk]) hl hadds
  next =>
    split at hd
    next hk => exact associationFor_places hb hk hd
    next => cases hd

end Draft
end ClassGrammar
