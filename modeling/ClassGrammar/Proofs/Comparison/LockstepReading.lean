import ClassGrammar.Proofs.Comparison.ReidentifiedModels
import ClassGrammar.Proofs.Models.LargerIndex

/-! Reading two documents in lockstep. When the second one is the first one under other identifiers,
each step ends alike in both, and so does the whole run, with the same handles all along. -/
namespace ClassGrammar

section

variable (s : String → String)

/-- Whether the second of two documents is the first one under other identifiers. Each identifier
leads to the same node, and no identifier is mixed up with the reference of a library type. -/
structure Node.AlikeRoots (roots roots' : List Node) : Prop where
  injective : Function.Injective s
  nodes : List.Forall₂ (Node.Alike s) roots roots'
  found : ∀ id, Option.Rel (Node.Alike s) ((IdIndex.ofRoots roots).get? id)
    ((IdIndex.ofRoots roots').get? (s id))
  apart : ∀ id ∈ Node.ids roots, ∀ href ∈ Node.libraryHrefs roots, s id = href ↔ id = href

/-- Whether a class waits in both queues under the same handle. -/
structure Draft.WaitsAlike (roots : List Node) (q q' : Handle × Node) : Prop where
  handle : q'.1 = q.1
  mem : q.2 ∈ Node.preorderAll roots
  node : q.2.Alike s q'.2

/-- Whether two drafts have the same elements and classes to read, and find the same handles. -/
structure Draft.Alike (roots : List Node) (d d' : Draft) : Prop where
  model : d.model.Alike s d'.model
  byId : ∀ id ∈ Node.ids roots, d'.model.lookup (s id) = d.model.lookup id
  byHref : ∀ href ∈ Node.libraryHrefs roots, d'.model.lookup href = d.model.lookup href
  queue : List.Forall₂ (Draft.WaitsAlike s roots) d.queue d'.queue

/-- Two drafts that are alike, with results that are related. -/
structure Draft.YieldsAlike {α β : Type} (roots : List Node) (R : α → β → Prop) (r : Draft × α)
    (r' : Draft × β) : Prop where
  draft : r.1.Alike s roots r'.1
  result : R r.2 r'.2

end

variable {s : String → String} {roots roots' : List Node} {n n' : Node}

section Heads

variable (hn : n.Alike s n')
include hn

theorem requiredName_alike (noun : String) :
    EndAlike (Fault.Alike s) Eq (requiredName n noun) (requiredName n' noun) := by
  unfold requiredName
  rw [hn.attributes.name]
  cases n.name? with
  | some name => exact .ok rfl
  | none => exact .error ⟨.missingAttribute _ _, fun hs => by rw [hn.describe hs]⟩

theorem readLiteral_alike : EndAlike (Fault.Alike s) (fun l l' : Literal => l.name = l'.name)
    (readLiteral n) (readLiteral n') :=
  (requiredName_alike hn "enumeration literal").bind fun _ _ hname => .ok hname

theorem readLiterals_alike (kind : TypeKind) : EndAlike (Fault.Alike s)
    (fun ls ls' : List Literal => ls'.map (·.name) = ls.map (·.name)) (readLiterals n kind)
    (readLiterals n' kind) := by
  cases kind with
  | enumeration =>
    have hall := (hn.children "ownedLiteral").imp fun _ _ => readLiteral_alike
    exact (EndAlike.mapM hall).imp fun _ _ hls => (map_eq_iff_forall₂.mpr hls).symm
  | _ => exact .ok rfl

theorem readElement_alike (kind : TypeKind) :
    EndAlike (Fault.Alike s) (fun e e' => e.id = n.id? ∧ e.Alike s e') (readElement kind n)
      (readElement kind n') :=
  (readLiterals_alike hn kind).bind fun _ _ hls =>
    (requiredName_alike hn kind.noun).bind fun _ _ hname =>
      .ok ⟨rfl, hn.attributes.id, hname.symm, kind.form_alike hls⟩

end Heads

theorem Node.AlikeRoots.resolve (ha : AlikeRoots s roots roots') (id : String)
    {context context' : String} (hcontext : (∀ t, s t = t) → context = context') :
    EndAlike (Fault.Alike s) (fun t t' => t ∈ preorderAll roots ∧ t.Alike s t')
      ((IdIndex.ofRoots roots).resolve id context)
      ((IdIndex.ofRoots roots').resolve (s id) context') := by
  have hfound := ha.found id
  unfold IdIndex.resolve
  cases ht : (IdIndex.ofRoots roots).get? id with
  | none =>
    cases ht' : (IdIndex.ofRoots roots').get? (s id) with
    | none => exact .error ⟨.danglingReference _ _ _ _, fun hs => by rw [hs id, hcontext hs]⟩
    | some t' => simp [ht, ht'] at hfound
  | some t =>
    cases ht' : (IdIndex.ofRoots roots').get? (s id) with
    | none => simp [ht, ht'] at hfound
    | some t' =>
      rw [ht, ht', Option.rel_some_some] at hfound
      exact .ok ⟨IdIndex.mem_of_get?_ofRoots ht, hfound⟩

namespace Draft

variable {d d' : Draft}

theorem Alike.known_eq (hd : d.Alike s roots d') (hmem : n ∈ Node.preorderAll roots)
    (hn : n.Alike s n') : n'.id?.bind d'.model.lookup = n.id?.bind d.model.lookup := by
  rw [hn.attributes.id]
  cases hid : n.id? with
  | none => rfl
  | some id => exact hd.byId id (Node.mem_ids hmem hid)

/-- The same class leaves both queues. -/
theorem Alike.pop {h : Handle} {rest : List (Handle × Node)} (hd : d.Alike s roots d')
    (hq : d.queue = (h, n) :: rest) : ∃ n' rest', d'.queue = (h, n') :: rest' ∧
      n ∈ Node.preorderAll roots ∧ n.Alike s n' ∧
      { d with queue := rest }.Alike s roots { d' with queue := rest' } := by
  have hqueue := hd.queue
  rw [hq] at hqueue
  obtain ⟨⟨h', n'⟩, rest', hw, hrest, hq'⟩ := List.forall₂_cons_left_iff.mp hqueue
  obtain rfl : h' = h := hw.handle
  exact ⟨n', rest', hq', hw.mem, hw.node, hd.model, hd.byId, hd.byHref, hrest⟩

theorem Alike.addRoot (hd : d.Alike s roots d') (h : Handle) :
    { d with model := d.model.addRoot h }.Alike s roots
      { d' with model := d'.model.addRoot h } where
  model := ⟨hd.model.elements, by simp only [Model.addRoot, hd.model.roots]⟩
  byId := hd.byId
  byHref := hd.byHref
  queue := hd.queue

/-- Drafts stay alike when elements are added that are alike. -/
theorem Alike.add (ha : Node.AlikeRoots s roots roots') (hd : d.Alike s roots d')
    {e e' : Element} (he : e.Alike s e') (hid : ∀ id, e.id = some id → id ∈ Node.ids roots)
    {queue queue' : List (Handle × Node)}
    (hqueue : List.Forall₂ (WaitsAlike s roots) queue queue') :
    Draft.Alike s roots ⟨d.model.add e, queue⟩ ⟨d'.model.add e', queue'⟩ where
  model := ⟨List.rel_append hd.model.elements (.cons he .nil), hd.model.roots⟩
  byId id hmem := by
    have hsame : e'.id = some (s id) ↔ e.id = some id := by
      rw [he.id]
      show e.id.map s = (some id).map s ↔ e.id = some id
      exact (Option.map_injective ha.injective).eq_iff
    simp only [Model.lookup_add, hsame, hd.model.size, hd.byId id hmem]
  byHref href hmem := by
    have hsame : e'.id = some href ↔ e.id = some href := by
      rw [he.id, Option.map_eq_some_iff]
      -- The identifier of an element is one of the document.
      constructor
      · rintro ⟨x, hx, hxs⟩
        rw [(ha.apart x (hid x hx) href hmem).mp hxs] at hx
        exact hx
      · exact fun h => ⟨href, h, (ha.apart href (hid href h) href hmem).mpr rfl⟩
    simp only [Model.lookup_add, hsame, hd.model.size, hd.byHref href hmem]
  queue := hqueue

/-- Lists of parts are read in lockstep when the parts are. -/
theorem ReadsEach.alike {β : Type} {R : β → β → Prop}
    {read read' : Draft → Node → Except Fault (Draft × β)}
    {readAll readAll' : Draft → List Node → Except Fault (Draft × List β)}
    (hr : ReadsEach read readAll) (hr' : ReadsEach read' readAll') {cs cs' : List Node}
    (hcs : List.Forall₂ (fun c c' => ∀ {d d' : Draft}, d.Alike s roots d' →
      EndAlike (Fault.Alike s) (YieldsAlike s roots R) (read d c) (read' d' c')) cs cs')
    (hd : d.Alike s roots d') :
    EndAlike (Fault.Alike s) (YieldsAlike s roots (List.Forall₂ R)) (readAll d cs)
      (readAll' d' cs') := by
  induction hcs generalizing d d' with
  | nil =>
    rw [hr.nil, hr'.nil]
    exact .ok ⟨hd, .nil⟩
  | cons hc _ ih =>
    rw [hr.cons, hr'.cons]
    refine (hc hd).bind fun _ _ hb => (ih hb.draft).bind fun _ _ hbs => ?_
    exact .ok ⟨hbs.draft, .cons hb.result hbs.result⟩

variable (ha : Node.AlikeRoots s roots roots') (hd : d.Alike s roots d')
include ha hd

theorem typeFor_alike (hmem : n ∈ Node.preorderAll roots) (hn : n.Alike s n') (kind : TypeKind) :
    EndAlike (Fault.Alike s) (YieldsAlike s roots Eq) (d.typeFor kind n) (d'.typeFor kind n') := by
  unfold typeFor
  rw [hd.known_eq hmem hn]
  cases n.id?.bind d.model.lookup with
  | some h => exact .ok ⟨hd, rfl⟩
  | none =>
    refine (readElement_alike hn kind).bind fun e e' ⟨hid, he⟩ => .ok ⟨hd.add ha he ?_ ?_, ?_⟩
    · intro id h
      exact Node.mem_ids hmem (hid ▸ h)
    · cases kind.isClass with
      | true => exact List.rel_append hd.queue (.cons ⟨hd.model.size, hmem, hn⟩ .nil)
      | false => exact hd.queue
    · exact hd.model.size.symm

theorem libraryType_alike {owner owner' : Node} (ho : owner.Alike s owner') {href : String}
    (hmem : href ∈ Node.libraryHrefs roots) (kind : Option String) :
    EndAlike (Fault.Alike s) (YieldsAlike s roots Eq) (d.libraryType href kind owner)
      (d'.libraryType href kind owner') := by
  unfold libraryType
  rw [hd.byHref href hmem]
  cases d.model.lookup href with
  | some h => exact .ok ⟨hd, rfl⟩
  | none =>
    cases kind.bind TypeKind.ofText? with
    | none =>
      exact .error ⟨.unrecognizedKind _ _ _, fun hs => by rw [ho.describe hs]⟩
    | some k =>
      have he : Element.Alike s ⟨none, libraryName href, .publicAccess, k.form []⟩
          ⟨none, libraryName href, .publicAccess, k.form []⟩ := ⟨rfl, rfl, k.form_alike rfl⟩
      have hadded := hd.add ha he (by simp) hd.queue
      refine .ok ⟨⟨⟨hadded.model.elements, hadded.model.roots⟩, ?_, ?_, hadded.queue⟩,
        hd.model.size.symm⟩
      · intro id hid
        simp only [Model.lookup_register, ha.apart id hid href hmem, hd.model.size,
          hadded.byId id hid]
      · intro key hkey
        simp only [Model.lookup_register, hd.model.size, hadded.byHref key hkey]

theorem propertyType_alike (hn : n.Alike s n')
    (hmem : ∀ href, n.libraryHref? = some href → href ∈ Node.libraryHrefs roots) :
    EndAlike (Fault.Alike s) (YieldsAlike s roots Eq) (propertyType (.ofRoots roots) d n)
      (propertyType (.ofRoots roots') d' n') := by
  unfold propertyType
  rw [hn.attributes.type]
  cases hid : n.attr? "type" with
  | some id =>
    refine (ha.resolve id fun hs => by rw [hn.describe hs]).bind fun t t' ⟨htmem, ht⟩ => ?_
    rw [ht.ofNode?, ht.attributes.kind]
    cases TypeKind.ofNode? t with
    | some kind => exact typeFor_alike ha hd htmem ht kind
    | none =>
      exact .error ⟨.unrecognizedKind _ _ _, fun hs => by rw [ht.describe hs, hn.describe hs]⟩
  | none =>
    match hc : n.child? "type", n'.child? "type", hn.child? "type" with
    | _, _, .none => exact .error ⟨.missingAttribute _ _, fun hs => by rw [hn.describe hs]⟩
    | some ref, _, .some hr =>
      simp only [Option.map_none, hr.attributes.href, hr.attributes.kind]
      cases hhref : ref.attr? "href" with
      | none => exact .error ⟨.missingAttribute _ _, fun hs => by rw [hn.describe hs]⟩
      | some href =>
        exact libraryType_alike ha hd hn
          (hmem href (Node.libraryHref?_eq_some.mpr ⟨hid, ref, hc, hhref⟩)) ref.kind?

theorem property_alike (hn : n.Alike s n')
    (hmem : ∀ href, n.libraryHref? = some href → href ∈ Node.libraryHrefs roots) :
    EndAlike (Fault.Alike s) (YieldsAlike s roots (Property.Alike s))
      (property (.ofRoots roots) d n) (property (.ofRoots roots') d' n') := by
  refine (propertyType_alike ha hd hn hmem).bind fun ⟨d₁, type⟩ ⟨d₁', type'⟩ hr => ?_
  obtain ⟨hd₁, rfl⟩ := hr
  have hname : n'.name?.getD (Text.lowerFirst (d₁'.model.element type).name) =
      n.name?.getD (Text.lowerFirst (d₁.model.element type).name) := by
    rw [hn.attributes.name, (hd₁.model.element type).name]
  simp only [hname, hn.readMultiplicity, hn.attributes.aggregation]
  refine (EndAlike.of_eq rfl).bind fun multiplicity multiplicity' hm => ?_
  exact .ok ⟨hd₁, hn.attributes.id, rfl, hm.symm, rfl, rfl⟩

theorem properties_alike {cs cs' : List Node} (hcs : List.Forall₂ (Node.Alike s) cs cs')
    (hmem : ∀ c ∈ cs, ∀ href, c.libraryHref? = some href → href ∈ Node.libraryHrefs roots) :
    EndAlike (Fault.Alike s) (YieldsAlike s roots (List.Forall₂ (Property.Alike s)))
      (properties (.ofRoots roots) d cs) (properties (.ofRoots roots') d' cs') :=
  (readsEach_properties _).alike (readsEach_properties _)
    (forall₂_imp_of_mem hcs fun c hc _ hr _ _ hd => property_alike ha hd hr (hmem c hc)) hd

theorem generalization_alike {specific specific' : Node} (hs : specific.Alike s specific')
    (hn : n.Alike s n') :
    EndAlike (Fault.Alike s)
      (YieldsAlike s roots fun g g' : Generalization => g.targets = g'.targets)
      (generalization (.ofRoots roots) specific d n)
      (generalization (.ofRoots roots') specific' d' n') := by
  unfold generalization
  rw [hn.attributes.general]
  cases n.attr? "general" with
  | none => exact .error ⟨.missingAttribute _ _, fun h => by rw [hs.describe h]⟩
  | some id =>
    refine (ha.resolve id fun h => by rw [hs.describe h]).bind fun t t' ⟨htmem, ht⟩ => ?_
    rw [ht.ofNode?, ht.attributes.kind]
    cases (TypeKind.ofNode? t).filter TypeKind.isClass with
    | some kind =>
      refine (typeFor_alike ha hd htmem ht kind).bind fun _ _ hr => .ok ⟨hr.draft, ?_⟩
      rw [hr.result]
    | none =>
      exact .error ⟨.unrecognizedKind _ _ _, fun h => by rw [ht.describe h, hs.describe h]⟩

theorem generalizations_alike {specific specific' : Node} (hs : specific.Alike s specific')
    {cs cs' : List Node} (hcs : List.Forall₂ (Node.Alike s) cs cs') :
    EndAlike (Fault.Alike s)
      (YieldsAlike s roots fun gs gs' : List Generalization =>
        gs'.map (·.targets) = gs.map (·.targets))
      (generalizations (.ofRoots roots) specific d cs)
      (generalizations (.ofRoots roots') specific' d' cs') :=
  ((readsEach_generalizations _ _).alike (readsEach_generalizations _ _)
    (hcs.imp fun _ _ hr _ _ hd => generalization_alike ha hd hs hr) hd).imp
      fun _ _ hg => ⟨hg.draft, (map_eq_iff_forall₂.mpr hg.result).symm⟩

theorem fillMembers_alike (hmem : n ∈ Node.preorderAll roots) (hn : n.Alike s n') (h : Handle) :
    EndAlike (Fault.Alike s) (Draft.Alike s roots) (fillMembers (.ofRoots roots) d h n)
      (fillMembers (.ofRoots roots') d' h n') := by
  have hhrefs : ∀ c ∈ n.children "ownedAttribute", ∀ href, c.libraryHref? = some href →
      href ∈ Node.libraryHrefs roots := fun c hc href =>
    Node.mem_libraryHrefs hmem (List.mem_append_left _ hc)
  refine (properties_alike ha hd (hn.children "ownedAttribute") hhrefs).bind fun _ _ hp => ?_
  refine (generalizations_alike ha hp.draft hn (hn.children "generalization")).bind
    fun _ _ hg => .ok ?_
  exact ⟨hg.draft.model.setMembers h hp.result hg.result, hg.draft.byId, hg.draft.byHref,
    hg.draft.queue⟩

theorem associationFor_alike (hmem : n ∈ Node.preorderAll roots) (hn : n.Alike s n') :
    EndAlike (Fault.Alike s) (YieldsAlike s roots Eq) (associationFor (.ofRoots roots) d n)
      (associationFor (.ofRoots roots') d' n') := by
  unfold associationFor
  rw [hd.known_eq hmem hn]
  cases n.id?.bind d.model.lookup with
  | some h => exact .ok ⟨hd, rfl⟩
  | none =>
    have hends := hn.children "ownedEnd"
    have hhrefs : ∀ c ∈ n.children "ownedEnd", ∀ href, c.libraryHref? = some href →
        href ∈ Node.libraryHrefs roots := fun c hc href =>
      Node.mem_libraryHrefs hmem (List.mem_append_right _ hc)
    match hc : n.children "ownedEnd", n'.children "ownedEnd", hends with
    | [a, b], _, .cons hra (.cons hrb .nil) =>
      simp only [hc, List.mem_cons, forall_eq_or_imp] at hhrefs
      refine (property_alike ha hd hra hhrefs.1).bind fun ⟨d₁, p⟩ ⟨d₁', p'⟩ hp => ?_
      refine (property_alike ha hp.draft hrb hhrefs.2.1).bind fun ⟨d₂, q⟩ ⟨d₂', q'⟩ hq => ?_
      have hsize : d₂'.model.size = d₂.model.size := hq.draft.model.size
      refine .ok ⟨hq.draft.add ha ⟨hn.attributes.id, ?_, ?_⟩ ?_ hq.draft.queue, hsize.symm⟩
      · show n'.name?.getD "" = n.name?.getD ""
        rw [hn.attributes.name]
      · have htokens := hn.attributes.tokens
        unfold Node.navigableTokens at htokens
        simp only [htokens, hsize]
        exact .association (hp.result.inAssociation _) (hq.result.inAssociation _)
      · exact fun id hid => Node.mem_ids hmem hid
    | [], _, .nil => exact .error ⟨.missingElement _ _, fun hs => by simp [hn.describe hs]⟩
    | [_], _, .cons _ .nil =>
      exact .error ⟨.missingElement _ _, fun hs => by simp [hn.describe hs]⟩
    | _ :: _ :: _ :: _, _, .cons _ (.cons _ (.cons _ hrest)) =>
      exact .error ⟨.missingElement _ _, fun hs => by simp [hn.describe hs, hrest.length_eq]⟩

theorem rootFor_alike (hmem : n ∈ Node.preorderAll roots) (hn : n.Alike s n') (position : Nat) :
    EndAlike (Fault.Alike s) (YieldsAlike s roots Eq) (rootFor (.ofRoots roots) d position n)
      (rootFor (.ofRoots roots') d' position n') := by
  unfold rootFor
  rw [hn.ofNode?, hn.attributes.kind]
  cases TypeKind.ofNode? n with
  | some kind => exact typeFor_alike ha hd hmem hn kind
  | none =>
    by_cases hk : n.kind? = some "uml:Association"
    · simp only [hk, if_true]
      exact associationFor_alike ha hd hmem hn
    · simp only [hk, if_false]
      exact .error ⟨.unrecognizedKind _ _ _, fun hs => by rw [hn.describe hs]⟩

theorem drain_alike : EndAlike (Fault.Alike s) (Draft.Alike s roots) (drain (.ofRoots roots) d)
    (drain (.ofRoots roots') d') := by
  -- The induction follows the first run. What leaves its queue leaves the other queue as well.
  fun_induction drain (.ofRoots roots) d generalizing d' with
  | case1 d hq =>
    have hqueue := hd.queue
    rw [hq, List.forall₂_nil_left_iff] at hqueue
    rw [drain_nil hqueue]
    exact .ok hd
  | case2 d h n rest hq f hf =>
    obtain ⟨n', rest', hq', hmem, hn, hpop⟩ := hd.pop hq
    have hfill := fillMembers_alike ha hpop hmem hn h
    rw [hf] at hfill
    obtain ⟨f', hf', hfault⟩ := hfill.exists_error
    rw [drain_cons hq', hf']
    exact .error hfault
  | case3 d h n rest hq d₁ hf ih =>
    obtain ⟨n', rest', hq', hmem, hn, hpop⟩ := hd.pop hq
    have hfill := fillMembers_alike ha hpop hmem hn h
    rw [hf] at hfill
    obtain ⟨d₁', hf', hd₁⟩ := hfill.exists_ok
    rw [drain_cons hq', hf']
    exact ih hd₁

theorem addRoots_alike {position : Nat} {ns ns' : List Node}
    (hns : List.Forall₂ (Node.Alike s) ns ns') (hmem : ns ⊆ roots) :
    EndAlike (Fault.Alike s) (Draft.Alike s roots) (addRoots (.ofRoots roots) d position ns)
      (addRoots (.ofRoots roots') d' position ns') := by
  induction hns generalizing d d' position with
  | nil => exact .ok hd
  | @cons n n' rest rest' hn _ ih =>
    have hroot := Node.mem_preorderAll_of_mem (hmem List.mem_cons_self)
    refine (rootFor_alike ha hd hroot hn position).bind fun ⟨d₁, h⟩ ⟨d₁', h'⟩ hr => ?_
    obtain ⟨hd₁, rfl⟩ := hr
    refine (drain_alike ha (hd₁.addRoot h)).bind fun d₂ d₂' hd₂ => ?_
    exact ih hd₂ fun m hm => hmem (List.mem_cons_of_mem n hm)

end Draft

/-- Models are read in lockstep from documents that are the same under other identifiers. -/
theorem Model.ofNodes_alike (ha : Node.AlikeRoots s roots roots') :
    EndAlike (Fault.Alike s) (Model.Alike s) (Model.ofNodes (.ofRoots roots) roots)
      (Model.ofNodes (.ofRoots roots') roots') := by
  have hstart : ({} : Draft).Alike s roots {} :=
    ⟨⟨.nil, rfl⟩, fun _ _ => rfl, fun _ _ => rfl, .nil⟩
  exact (Draft.addRoots_alike ha hstart ha.nodes (List.Subset.refl roots)).map
    fun _ _ hd => hd.model

end ClassGrammar
