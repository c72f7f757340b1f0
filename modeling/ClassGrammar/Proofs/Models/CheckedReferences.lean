import ClassGrammar.Proofs.Models.NeededNodes

/-! What a run has checked. The references of a node have been resolved when the run is done with
it, and a library type has the kind that is stated somewhere for its reference. -/
namespace ClassGrammar

namespace Node

/-- The reference of the library type of a property, with the kind that is stated for it. -/
def libraryType? (c : Node) : Option (String × Option String) :=
  c.libraryHref?.bind fun href => (c.child? "type").map fun ref => (href, ref.kind?)

/-- The references of library types in the trees of some nodes, with the kinds stated for them. -/
def libraryTypes (roots : List Node) : List (String × Option String) :=
  (preorderAll roots).flatMap fun n =>
    (n.children "ownedAttribute" ++ n.children "ownedEnd").filterMap libraryType?

/-- Whether equal references of library types have equal kinds. -/
def HrefsAgree (roots : List Node) : Prop :=
  ∀ p ∈ libraryTypes roots, ∀ q ∈ libraryTypes roots, p.1 = q.1 → p.2 = q.2

instance (roots : List Node) : Decidable (HrefsAgree roots) :=
  inferInstanceAs (Decidable (∀ p ∈ libraryTypes roots, ∀ q ∈ libraryTypes roots, _))

/-- Whether the references of a node lead to nodes that may stand there. -/
structure Resolves (ix : IdIndex) (n : Node) : Prop where
  types : ∀ c ∈ n.propertyNodes, ∀ id, c.attr? "type" = some id → ∃ m, c.TypedBy ix (.node m)
  generals : n.isClass = true → ∀ c ∈ n.children "generalization", ∃ m, c.Specializes ix (.node m)

section Trees

variable {ix : IdIndex} {roots : List Node} {n c : Node}

theorem mem_children_of_propertyNodes (hc : c ∈ n.propertyNodes) :
    c ∈ n.children "ownedAttribute" ++ n.children "ownedEnd" := by
  unfold propertyNodes at hc
  split at hc
  · exact List.mem_append_left _ hc
  · split at hc
    · exact List.mem_append_right _ hc
    · cases hc

theorem libraryType?_eq_some {c ref : Node} {href : String} (hc : c.libraryHref? = some href)
    (hr : c.child? "type" = some ref) : c.libraryType? = some (href, ref.kind?) := by
  simp [libraryType?, hc, hr]

theorem mem_libraryTypes (hn : n ∈ preorderAll roots)
    (hc : c ∈ n.children "ownedAttribute" ++ n.children "ownedEnd") {p : String × Option String}
    (hp : c.libraryType? = some p) : p ∈ libraryTypes roots :=
  List.mem_flatMap.mpr ⟨n, hn, List.mem_filterMap.mpr ⟨c, hc, hp⟩⟩

theorem mem_libraryHrefs_of_libraryTypes {p : String × Option String}
    (hp : p ∈ libraryTypes roots) : p.1 ∈ libraryHrefs roots := by
  obtain ⟨n, hn, hp⟩ := List.mem_flatMap.mp hp
  obtain ⟨c, hc, hp⟩ := List.mem_filterMap.mp hp
  obtain ⟨href, hhref, hp⟩ := Option.bind_eq_some_iff.mp hp
  obtain ⟨ref, -, rfl⟩ := Option.map_eq_some_iff.mp hp
  exact mem_libraryHrefs hn hc hhref

theorem TypedBy.mem_libraryTypes {href : String} {kind : TypeKind} (hn : n ∈ preorderAll roots)
    (hc : c ∈ n.children "ownedAttribute" ++ n.children "ownedEnd")
    (h : c.TypedBy ix (.library href kind)) : (href, some kind.text) ∈ libraryTypes roots := by
  cases h with
  | @library ref _ _ key child isType =>
    have hp := libraryType?_eq_some key child
    rw [TypeKind.bind_ofText?_eq_some.mp isType] at hp
    exact Node.mem_libraryTypes hn hc hp

theorem resolves_of_type {kind : TypeKind} (hk : TypeKind.ofNode? n = some kind)
    (hclass : n.isClass = false) : n.Resolves ix := by
  have hassociation : n.isAssociation = false := by
    cases ha : n.isAssociation with
    | false => rfl
    | true => simp [ofNode?_of_isAssociation ha] at hk
  constructor
  · simp [propertyNodes, hclass, hassociation]
  · simp [hclass]

end Trees
end Node

/-- The sources that may come into a draft: nodes of the trees, of which those that do not wait in
the queue have their references resolved, and library types with a kind that is stated. -/
def Source.Expected (roots : List Node) : Source → Prop
  | node n => n ∈ Node.preorderAll roots ∧ (n.isClass = false → n.Resolves (.ofRoots roots))
  | library href kind => (href, some kind.text) ∈ Node.libraryTypes roots

namespace Node

variable {roots : List Node} {n c : Node} {src : Source}

theorem TypedBy.expected (hn : n ∈ preorderAll roots)
    (hc : c ∈ n.children "ownedAttribute" ++ n.children "ownedEnd")
    (h : c.TypedBy (.ofRoots roots) src) : src.Expected roots := by
  cases src with
  | node m =>
    cases h with
    | node _ found isType =>
      exact ⟨IdIndex.mem_of_get?_ofRoots found, fun hclass => resolves_of_type isType hclass⟩
  | library href kind => exact h.mem_libraryTypes hn hc

theorem Cites.expected (hn : n ∈ preorderAll roots) (h : n.Cites (.ofRoots roots) src) :
    src.Expected roots := by
  rcases h with ⟨c, hc, htyped⟩ | ⟨c, hc, hspec⟩
  · exact htyped.expected hn (List.mem_append_left _ hc)
  · cases hspec with
    | node _ found isClass =>
      exact ⟨IdIndex.mem_of_get?_ofRoots found, fun hclass => by simp [isClass] at hclass⟩

end Node

namespace Draft

section Resolved

variable {ix : IdIndex} {d d' : Draft}

theorem typedBy_of_property {c : Node} {p : Property} (h : property ix d c = .ok (d', p))
    {id : String} (hid : c.attr? "type" = some id) : ∃ m, c.TypedBy ix (.node m) := by
  obtain ⟨r, ht, -⟩ := outcome_bind.mp h
  unfold propertyType at ht
  simp only [hid] at ht
  obtain ⟨m, hm, ht⟩ := outcome_bind.mp ht
  split at ht
  next kind hk => exact ⟨m, .node hid (IdIndex.resolve_eq_ok.mp hm) hk⟩
  next => cases ht

theorem specializes_of_generalization {specific c : Node} {g : Generalization}
    (h : generalization ix specific d c = .ok (d', g)) : ∃ m, c.Specializes ix (.node m) := by
  unfold generalization at h
  split at h
  next => cases h
  next id hid =>
    obtain ⟨m, hm, h⟩ := outcome_bind.mp h
    split at h
    next kind hk =>
      obtain ⟨hkind, hclass⟩ := Option.filter_eq_some_iff.mp hk
      have hm' := Node.isClass_eq_true.mpr ⟨kind, hkind, hclass⟩
      exact ⟨m, .node hid (IdIndex.resolve_eq_ok.mp hm) hm'⟩
    next => cases h

/-- What reading a part shows of its node holds of all nodes whose parts are read. -/
theorem ReadsEach.forall {β : Type} {Q : Node → Prop}
    {read : Draft → Node → Except Fault (Draft × β)}
    {readAll : Draft → List Node → Except Fault (Draft × List β)} (hr : ReadsEach read readAll)
    (part : ∀ {d d' c b}, read d c = .ok (d', b) → Q c)
    {cs : List Node} {bs : List β} (h : readAll d cs = .ok (d', bs)) : ∀ c ∈ cs, Q c := by
  induction cs generalizing d bs with
  | nil => simp
  | cons c rest ih =>
    rw [hr.cons] at h
    obtain ⟨⟨d₁, b⟩, hb, h⟩ := outcome_bind.mp h
    obtain ⟨⟨d₂, bs'⟩, hbs, h⟩ := outcome_bind.mp h
    cases h
    rw [List.forall_mem_cons]
    exact ⟨part hb, ih hbs⟩

theorem resolves_of_fillMembers {h : Handle} {n : Node} (hclass : n.isClass = true)
    (hf : fillMembers ix d h n = .ok d') : n.Resolves ix := by
  obtain ⟨⟨d₁, attributes⟩, ha, hf⟩ := outcome_bind.mp hf
  obtain ⟨⟨d₂, gs⟩, hg, hf⟩ := outcome_bind.mp hf
  constructor
  · rw [Node.propertyNodes_of_isClass hclass]
    exact (readsEach_properties ix).forall
      (Q := fun c => ∀ id, c.attr? "type" = some id → ∃ m, c.TypedBy ix (.node m))
      (fun h _ hid => typedBy_of_property h hid) ha
  · intro _
    exact (readsEach_generalizations ix n).forall (Q := fun c => ∃ m, c.Specializes ix (.node m))
      specializes_of_generalization hg

/-- A top-level node that is read for the first time is a class or has its references resolved. -/
theorem resolves_of_rootFor {position : Nat} {n : Node} {h : Handle}
    (hr : rootFor ix d position n = .ok (d', h)) (hl : d.Lacks (.node n))
    (hclass : n.isClass = false) : n.Resolves ix := by
  unfold rootFor at hr
  split at hr
  next kind hk => exact Node.resolves_of_type hk hclass
  next =>
    split at hr
    next ha =>
      have hassociation : n.isAssociation = true := by simpa [Node.isAssociation] using ha
      unfold associationFor at hr
      split at hr
      next a hknown =>
        obtain ⟨key, hkey, hfound⟩ := Option.bind_eq_some_iff.mp hknown
        rw [hl key hkey] at hfound
        cases hfound
      next =>
        split at hr
        next a b hends =>
          obtain ⟨⟨d₁, first⟩, hfirst, hr⟩ := outcome_bind.mp hr
          obtain ⟨⟨d₂, second⟩, hsecond, hr⟩ := outcome_bind.mp hr
          refine ⟨?_, by simp [hclass]⟩
          rw [Node.propertyNodes_of_isAssociation hassociation, hends]
          intro c hc id hid
          rcases List.mem_cons.mp hc with rfl | hc
          · exact typedBy_of_property hfirst hid
          · obtain rfl := List.mem_singleton.mp hc
            exact typedBy_of_property hsecond hid
        next => cases hr
    next => cases hr

end Resolved

/-- What is known of the nodes and the library types in a draft when some top-level nodes are done.
A node in it waits in the queue or has its references resolved. -/
structure Checked (roots done : List Node) (d : Draft) : Prop where
  bounded : d.model.Bounded
  queued : ∀ p ∈ d.queue, p.2 ∈ Node.preorderAll roots ∧ p.2.isClass = true
  resolved : ∀ n ∈ Node.preorderAll roots,
    n ∈ done ∨ (∃ id, n.id? = some id ∧ (d.model.lookup id).isSome) →
      n ∈ d.queue.map Prod.snd ∨ n.Resolves (.ofRoots roots)
  libraries : ∀ key h, d.model.lookup key = some h → key ∈ Node.ids roots ∨
    ∃ kind : TypeKind, (key, some kind.text) ∈ Node.libraryTypes roots ∧
      (d.model.element h).form.kindText = kind.text

namespace Checked

variable {roots done : List Node} {d d' : Draft}

theorem start (roots : List Node) : ({} : Draft).Checked roots [] where
  bounded _ _ hl := by cases hl
  queued _ hp := by cases hp
  resolved _ _ h := by
    rcases h with hdone | ⟨id, -, hl⟩
    · cases hdone
    · cases hl
  libraries _ _ hl := by cases hl

/-- A new source is registered under its own key only, so no other node is concerned. -/
theorem adds {src : Source} (hc : d.Checked roots done) (hap : Node.Apart roots)
    (ha : d.Adds src d') (he : src.Expected roots) : d'.Checked roots done where
  bounded := ha.bounded hc.bounded
  queued p hp := by
    rw [ha.queue, List.mem_append] at hp
    rcases hp with hp | hp
    · exact hc.queued p hp
    · cases src with
      | node n =>
        cases hclass : n.isClass <;> simp [Source.openings, hclass] at hp
        obtain rfl := hp
        exact ⟨he.1, hclass⟩
      | library _ _ => simp [Source.openings] at hp
  resolved n hn h := by
    rw [ha.queue, List.map_append, List.mem_append]
    by_cases hnew : ∃ id, n.id? = some id ∧ src.key? = some id
    · obtain ⟨id, hid, hkey⟩ := hnew
      cases src with
      | node m =>
        obtain rfl : n = m := hap.distinct.eq_of_id hn he.1 hid hkey
        cases hclass : n.isClass with
        | true => exact .inl (.inr (by simp [Source.openings, hclass]))
        | false => exact .inr (he.2 hclass)
      | library href kind =>
        cases hkey
        have hmem : id ∈ Node.ids roots := Node.mem_ids hn hid
        exact absurd (Node.mem_libraryHrefs_of_libraryTypes he) (hap.foreign id hmem)
    · have hold : n ∈ done ∨ ∃ id, n.id? = some id ∧ (d.model.lookup id).isSome := by
        refine h.imp_right ?_
        rintro ⟨id, hid, hl⟩
        rw [ha.lookup, if_neg fun hkey => hnew ⟨id, hid, hkey⟩] at hl
        exact ⟨id, hid, hl⟩
      exact (hc.resolved n hn hold).imp_left .inl
  libraries key h hl := by
    rw [ha.lookup] at hl
    split at hl
    next hkey =>
      cases hl
      cases src with
      | node n => exact .inl (Node.mem_ids he.1 hkey)
      | library href kind =>
        cases hkey
        have hlt : d.model.size < d'.model.elements.length := by
          have hsize := ha.size
          unfold Model.size at hsize ⊢
          omega
        have hget := List.getElem?_eq_getElem hlt
        have hhead : _ = _ := ha.heads hget
        refine .inr ⟨kind, he, ?_⟩
        rw [Model.element_of_getElem? hget, hhead, TypeKind.kindText_form]
    next =>
      have hold := ha.getElem? (hc.bounded key h hl)
      have hsame : d'.model.element h = d.model.element h := by
        simp only [Model.element, List.getD_eq_getElem?_getD, hold]
      rw [hsame]
      exact hc.libraries key h hl

theorem grows {P : Source → Prop} (hc : d.Checked roots done) (hap : Node.Apart roots)
    (hg : d.Grows P d') (hp : ∀ src, P src → src.Expected roots) : d'.Checked roots done := by
  induction hg with
  | refl => exact hc
  | tail _ hs ih =>
    obtain ⟨src, hsrc, -, ha⟩ := hs
    exact ih.adds hap ha (hp src hsrc)

theorem setMembers {h : Handle} {attributes : List Property} {gs : List Generalization}
    (hc : d.Checked roots done) :
    { d with model := d.model.setMembers h attributes gs }.Checked roots done where
  bounded key a ha := by
    have hlt := hc.bounded key a ha
    simpa using hlt
  queued := hc.queued
  resolved := hc.resolved
  libraries key a ha := by
    refine (hc.libraries key a ha).imp_right ?_
    rintro ⟨kind, hkind, htext⟩
    refine ⟨kind, hkind, ?_⟩
    rw [← htext, Model.element, Model.element, List.getD_eq_getElem?_getD,
      List.getD_eq_getElem?_getD, Model.getElem?_setMembers]
    cases d.model.elements[a]? with
    | none => rfl
    | some e => by_cases ha : h = a <;> simp [ha]

/-- The class at the front of the queue has its references resolved once its members are read. -/
theorem fill {h : Handle} {n : Node} {rest : List (Handle × Node)} (hc : d.Checked roots done)
    (hap : Node.Apart roots) (hq : d.queue = (h, n) :: rest)
    (hf : fillMembers (.ofRoots roots) { d with queue := rest } h n = .ok d') :
    d'.Checked roots done := by
  obtain ⟨hn, hclass⟩ := hc.queued (h, n) (by rw [hq]; exact List.mem_cons_self)
  have hres := resolves_of_fillMembers hclass hf
  have hrest : { d with queue := rest }.Checked roots done := by
    refine ⟨hc.bounded, fun p hp => hc.queued p (hq ▸ List.mem_cons_of_mem _ hp), ?_,
      hc.libraries⟩
    intro m hm h
    rcases hc.resolved m hm h with hqueue | hresolves
    · rw [hq, List.map_cons] at hqueue
      rcases List.mem_cons.mp hqueue with rfl | hqueue
      · exact .inr hres
      · exact .inl hqueue
    · exact .inr hresolves
  obtain ⟨d₁, attributes, gs, hg, -, -, rfl⟩ := fillMembers_spec hrest.bounded hf
  exact (hrest.grows hap hg fun src hsrc => hsrc.expected hn).setMembers

theorem place {position : Nat} {n : Node} {h : Handle} (hc : d.Checked roots done)
    (hap : Node.Apart roots) (hn : n ∈ roots)
    (hr : rootFor (.ofRoots roots) d position n = .ok (d', h)) :
    { d' with model := d'.model.addRoot h }.Checked roots (done ++ [n]) := by
  have hmem := Node.mem_preorderAll_of_mem hn
  suffices hd : d'.Checked roots done ∧
      (n ∈ d'.queue.map Prod.snd ∨ n.Resolves (.ofRoots roots)) by
    obtain ⟨hd, hnode⟩ := hd
    refine ⟨hd.bounded, hd.queued, fun m hm h => ?_, hd.libraries⟩
    rcases h with hdone | hid
    · rcases List.mem_append.mp hdone with hdone | hdone
      · exact hd.resolved m hm (.inl hdone)
      · exact List.mem_singleton.mp hdone ▸ hnode
    · exact hd.resolved m hm (.inr hid)
  have hnew (hl : d.Lacks (.node n)) : (Source.node n).Expected roots :=
    ⟨hmem, resolves_of_rootFor hr hl⟩
  have hwaits {d₀ d₁ : Draft} (ha : d₀.Adds (.node n) d₁) (hl : d.Lacks (.node n)) :
      n ∈ d₁.queue.map Prod.snd ∨ n.Resolves (.ofRoots roots) := by
    cases hclass : n.isClass with
    | true => exact .inl (by simp [ha.queue, Source.openings, hclass])
    | false => exact .inr (resolves_of_rootFor hr hl hclass)
  cases rootFor_places hc.bounded hr with
  | known id found => exact ⟨hc, hc.resolved n hmem (.inr ⟨_, id, by simp [found]⟩)⟩
  | type _ lacks adds => exact ⟨hc.adds hap adds (hnew lacks), hwaits adds lacks⟩
  | association _ lacks ends adds _ _ =>
    have hexpected (src : Source)
        (h : ∃ c ∈ n.children "ownedEnd", c.TypedBy (.ofRoots roots) src) :
        src.Expected roots := by
      obtain ⟨c, hchild, htyped⟩ := h
      exact htyped.expected hmem (List.mem_append_right _ hchild)
    have hends := hc.grows hap ends hexpected
    exact ⟨hends.adds hap adds (hnew lacks), hwaits adds lacks⟩

theorem run {rest : List Node} {position : Nat} (hc : d.Checked roots done)
    (hap : Node.Apart roots) (hq : d.queue = []) (hrest : rest ⊆ roots)
    (hd : addRoots (.ofRoots roots) d position rest = .ok d') :
    d'.Checked roots (done ++ rest) ∧ d'.queue = [] :=
  addRoots_run (I := fun done d => d.Checked roots done)
    (fun _ _ _ _ _ _ hc hn hr => hc.place hap hn hr)
    (fun _ _ _ _ _ _ hc hq hf => hc.fill hap hq hf) done hc hq hrest hd

end Checked

/-- A run ends with all of its nodes checked. -/
theorem checked_of_ofNodes {roots : List Node} (hap : Node.Apart roots) {m : Model}
    (h : Model.ofNodes (.ofRoots roots) roots = .ok m) :
    (⟨m, []⟩ : Draft).Checked roots roots := by
  obtain ⟨d, hd, rfl⟩ := Model.ofNodes_eq_ok.mp h
  obtain ⟨hc, hq⟩ := (Checked.start roots).run hap rfl (List.Subset.refl roots) hd
  rw [List.nil_append] at hc
  rwa [← hq]

end Draft
end ClassGrammar
