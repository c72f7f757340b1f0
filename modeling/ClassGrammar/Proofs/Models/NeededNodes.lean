import ClassGrammar.Proofs.Models.DirectReading

/-! The nodes that a class model needs are the top-level nodes and those that types of properties
and generalizations lead to from them. When each of these nodes is sound, the model can be read. -/
namespace ClassGrammar

namespace Node

/-- The children that are read as properties. -/
def propertyNodes (n : Node) : List Node :=
  if n.isClass then n.children "ownedAttribute"
  else if n.isAssociation then n.children "ownedEnd"
  else []

/-- The least set of nodes with the top-level nodes and the nodes that its members refer to. -/
inductive Needed (find : String → Option Node) (roots : List Node) : Node → Prop
  | root {n : Node} (mem : n ∈ roots) : Needed find roots n
  | type {n c m : Node} {id : String} (owner : Needed find roots n) (child : c ∈ n.propertyNodes)
      (key : c.attr? "type" = some id) (found : find id = some m) : Needed find roots m
  | general {n c m : Node} {id : String} (owner : Needed find roots n) (isClass : n.isClass = true)
      (child : c ∈ n.children "generalization") (key : c.attr? "general" = some id)
      (found : find id = some m) : Needed find roots m

/-- Whether a node has nothing of its own that stops a run. -/
structure Sound (find : String → Option Node) (n : Node) : Prop where
  kind : (TypeKind.ofNode? n).isSome ∨ n.isAssociation = true
  named : (TypeKind.ofNode? n).isSome → n.name?.isSome
  literals : n.kind? = some "uml:Enumeration" → ∀ c ∈ n.children "ownedLiteral", c.name?.isSome
  ends : n.isAssociation = true → (n.children "ownedEnd").length = 2
  properties : ∀ c ∈ n.propertyNodes, (c.typeSource? find).isSome ∧ c.multiplicity?.isSome
  generals : n.isClass = true → ∀ c ∈ n.children "generalization", (c.generalNode? find).isSome

theorem propertyNodes_of_isClass {n : Node} (h : n.isClass = true) :
    n.propertyNodes = n.children "ownedAttribute" := by
  simp [propertyNodes, h]

theorem ofNode?_of_isAssociation {n : Node} (h : n.isAssociation = true) :
    TypeKind.ofNode? n = none := by
  have hk : n.kind? = some "uml:Association" := by simpa [isAssociation] using h
  simp [TypeKind.ofNode?, hk, TypeKind.ofText?]

theorem propertyNodes_of_isAssociation {n : Node} (h : n.isAssociation = true) :
    n.propertyNodes = n.children "ownedEnd" := by
  simp [propertyNodes, h, isClass, ofNode?_of_isAssociation h]

section Sources

variable {ix : IdIndex} {roots : List Node} {n m c : Node}

theorem Needed.of_typedBy (hn : n.Needed ix.get? roots) (hc : c ∈ n.propertyNodes)
    (h : c.TypedBy ix (.node m)) : m.Needed ix.get? roots := by
  cases h with
  | node key found _ => exact .type hn hc key found

theorem Needed.of_cites (hn : n.Needed ix.get? roots) (hclass : n.isClass = true)
    (h : n.Cites ix (.node m)) : m.Needed ix.get? roots := by
  rcases h with ⟨c, hc, htyped⟩ | ⟨c, hc, hspec⟩
  · rw [← propertyNodes_of_isClass hclass] at hc
    exact hn.of_typedBy hc htyped
  · cases hspec with
    | node key found _ => exact .general hn hclass hc key found

end Sources
end Node

theorem exists_readLiterals {cs : List Node} (h : ∀ c ∈ cs, c.name?.isSome) :
    ∃ ls, cs.mapM readLiteral = .ok ls := by
  induction cs with
  | nil => exact ⟨[], rfl⟩
  | cons c rest ih =>
    obtain ⟨name, hname⟩ := Option.isSome_iff_exists.mp (h c List.mem_cons_self)
    obtain ⟨ls, hls⟩ := ih fun c' hc' => h c' (List.mem_cons_of_mem c hc')
    have hread : readLiteral c = .ok ⟨c.id?, name, .ofText (c.attr? "visibility")⟩ :=
      outcome_bind.mpr ⟨name, requiredName_eq_ok.mpr hname, rfl⟩
    rw [List.mapM_cons]
    exact exists_outcome_bind.mpr ⟨_, hread, exists_outcome_bind.mpr ⟨ls, hls, _, rfl⟩⟩

theorem exists_readElement {find : String → Option Node} {n : Node} (hs : n.Sound find)
    {kind : TypeKind} (hk : TypeKind.ofNode? n = some kind) : ∃ e, readElement kind n = .ok e := by
  obtain ⟨name, hname⟩ := Option.isSome_iff_exists.mp (hs.named (by simp [hk]))
  have hliterals : ∃ ls, readLiterals n kind = .ok ls := by
    cases kind with
    | enumeration => exact exists_readLiterals (hs.literals (TypeKind.kind?_of_ofNode? hk))
    | _ => exact ⟨[], rfl⟩
  obtain ⟨ls, hls⟩ := hliterals
  exact exists_outcome_bind.mpr ⟨ls, hls,
    exists_outcome_bind.mpr ⟨name, requiredName_eq_ok.mpr hname, _, rfl⟩⟩

namespace Draft

variable {ix : IdIndex} {roots : List Node} {d : Draft}

theorem exists_typeFor {find : String → Option Node} {n : Node} (hs : n.Sound find)
    {kind : TypeKind} (hk : TypeKind.ofNode? n = some kind) :
    ∃ r, d.typeFor kind n = .ok r := by
  unfold typeFor
  split
  next h _ => exact ⟨(d, h), rfl⟩
  next =>
    obtain ⟨e, he⟩ := exists_readElement hs hk
    exact exists_outcome_bind.mpr ⟨e, he, _, rfl⟩

theorem exists_propertyType {c : Node} {src : Source} (ht : c.TypedBy ix src)
    (hs : ∀ n, src = .node n → n.Sound ix.get?) : ∃ r, propertyType ix d c = .ok r := by
  unfold propertyType
  cases ht with
  | @node id n kind key found isType =>
    obtain ⟨r, hr⟩ := exists_typeFor (d := d) (hs n rfl) isType
    simp only [key]
    refine exists_outcome_bind.mpr ⟨n, IdIndex.resolve_eq_ok.mpr found, r, ?_⟩
    simp only [isType, hr]
  | @library ref href kind key child isType =>
    obtain ⟨hid, ref', href', hkey⟩ := Node.libraryHref?_eq_some.mp key
    obtain rfl := Option.some.inj (child.symm.trans href')
    simp only [hid, child, hkey]
    unfold libraryType
    split
    next h _ => exact ⟨(d, h), rfl⟩
    next =>
      simp only [isType]
      exact ⟨_, rfl⟩

theorem exists_property {c : Node} {src : Source} (ht : c.TypedBy ix src)
    (hs : ∀ n, src = .node n → n.Sound ix.get?) (hm : c.multiplicity?.isSome) :
    ∃ r, property ix d c = .ok r := by
  obtain ⟨⟨d₁, h⟩, ht⟩ := exists_propertyType (d := d) ht hs
  obtain ⟨multiplicity, hm⟩ := Option.isSome_iff_exists.mp hm
  exact exists_outcome_bind.mpr ⟨(d₁, h), ht,
    exists_outcome_bind.mpr ⟨multiplicity, Node.readMultiplicity_eq_ok.mpr hm, _, rfl⟩⟩

theorem exists_generalization {c n specific : Node} (hg : c.Specializes ix (.node n))
    (hs : n.Sound ix.get?) : ∃ r, generalization ix specific d c = .ok r := by
  cases hg with
  | node key found isClass =>
    obtain ⟨kind, hk, hclass⟩ := Node.isClass_eq_true.mp isClass
    obtain ⟨⟨d₁, h⟩, hr⟩ := exists_typeFor (d := d) hs hk
    unfold generalization
    simp only [key]
    refine exists_outcome_bind.mpr ⟨n, IdIndex.resolve_eq_ok.mpr found, ?_⟩
    simp only [hk, Option.filter_some, hclass, if_true]
    exact exists_outcome_bind.mpr ⟨(d₁, h), hr, _, rfl⟩

/-- Parts can be read one after the other when each can be read from any draft. -/
theorem ReadsEach.exists_ok {β : Type} {read : Draft → Node → Except Fault (Draft × β)}
    {readAll : Draft → List Node → Except Fault (Draft × List β)} (hr : ReadsEach read readAll)
    {cs : List Node} (h : ∀ c ∈ cs, ∀ d, ∃ r, read d c = .ok r) :
    ∃ r, readAll d cs = .ok r := by
  induction cs generalizing d with
  | nil => exact ⟨_, hr.nil d⟩
  | cons c rest ih =>
    obtain ⟨⟨d₁, b⟩, hb⟩ := h c List.mem_cons_self d
    obtain ⟨⟨d₂, bs⟩, hbs⟩ := ih (d := d₁) fun c' hc' => h c' (List.mem_cons_of_mem c hc')
    rw [hr.cons]
    exact exists_outcome_bind.mpr ⟨(d₁, b), hb, exists_outcome_bind.mpr ⟨(d₂, bs), hbs, _, rfl⟩⟩

section AllSound

variable (hall : ∀ n : Node, n.Needed ix.get? roots → n.Sound ix.get?)
include hall

/-- A property of a needed node can be read from any draft. -/
theorem exists_property_of_needed {n c : Node} (hn : n.Needed ix.get? roots)
    (hc : c ∈ n.propertyNodes) (d : Draft) : ∃ r, property ix d c = .ok r := by
  obtain ⟨htype, hm⟩ := (hall n hn).properties c hc
  obtain ⟨src, hsrc⟩ := Option.isSome_iff_exists.mp htype
  have ht := Node.typeSource?_eq_some.mp hsrc
  refine exists_property ht (fun m hm => ?_) hm
  subst hm
  exact hall m (hn.of_typedBy hc ht)

theorem exists_fillMembers {h : Handle} {n : Node} (hn : n.Needed ix.get? roots)
    (hclass : n.isClass = true) : ∃ d', fillMembers ix d h n = .ok d' := by
  have hproperties : ∃ r, properties ix d (n.children "ownedAttribute") = .ok r := by
    refine (readsEach_properties ix).exists_ok fun c hc d => ?_
    rw [← Node.propertyNodes_of_isClass hclass] at hc
    exact exists_property_of_needed hall hn hc d
  obtain ⟨⟨d₁, attributes⟩, ha⟩ := hproperties
  have hgeneralizations : ∃ r, generalizations ix n d₁ (n.children "generalization") = .ok r := by
    refine (readsEach_generalizations ix _).exists_ok fun c hc d => ?_
    obtain ⟨general, hgeneral⟩ := Option.isSome_iff_exists.mp ((hall n hn).generals hclass c hc)
    have hspec := Node.generalNode?_eq_some.mp hgeneral
    exact exists_generalization hspec (hall general (hn.of_cites hclass (.inr ⟨c, hc, hspec⟩)))
  obtain ⟨⟨d₂, generals⟩, hg⟩ := hgeneralizations
  exact exists_outcome_bind.mpr ⟨(d₁, attributes), ha,
    exists_outcome_bind.mpr ⟨(d₂, generals), hg, _, rfl⟩⟩

theorem exists_rootFor {n : Node} (hn : n ∈ roots) (position : Nat) :
    ∃ r, rootFor ix d position n = .ok r := by
  have hs := hall n (.root hn)
  unfold rootFor
  split
  next kind hk => exact exists_typeFor hs hk
  next hk =>
    have ha : n.isAssociation = true := hs.kind.resolve_left (by simp [hk])
    rw [if_pos (by simpa [Node.isAssociation] using ha)]
    unfold associationFor
    split
    next h _ => exact ⟨(d, h), rfl⟩
    next =>
      obtain ⟨a, b, hends⟩ := List.length_eq_two.mp (hs.ends ha)
      have hread (c : Node) (hc : c ∈ n.children "ownedEnd") (d : Draft) :
          ∃ r, property ix d c = .ok r := by
        rw [← Node.propertyNodes_of_isAssociation ha] at hc
        exact exists_property_of_needed hall (.root hn) hc d
      rw [hends] at hread ⊢
      obtain ⟨⟨d₁, first⟩, hfirst⟩ := hread a (by simp) d
      obtain ⟨⟨d₂, second⟩, hsecond⟩ := hread b (by simp) d₁
      exact exists_outcome_bind.mpr ⟨(d₁, first), hfirst,
        exists_outcome_bind.mpr ⟨(d₂, second), hsecond, _, rfl⟩⟩

end AllSound

/-- The queue holds classes that are needed, and the table handles of elements. -/
structure Waits (ix : IdIndex) (roots : List Node) (d : Draft) : Prop where
  bounded : d.model.Bounded
  queue : ∀ p ∈ d.queue, p.2.Needed ix.get? roots ∧ p.2.isClass = true

namespace Waits

theorem start (ix : IdIndex) (roots : List Node) : ({} : Draft).Waits ix roots where
  bounded key h hl := by cases hl
  queue p hp := by cases hp

theorem adds {src : Source} {d' : Draft} (hw : d.Waits ix roots) (ha : d.Adds src d')
    (hn : ∀ n, src = .node n → n.Needed ix.get? roots) : d'.Waits ix roots where
  bounded := ha.bounded hw.bounded
  queue p hp := by
    rw [ha.queue, List.mem_append] at hp
    rcases hp with hp | hp
    · exact hw.queue p hp
    · cases src with
      | node n =>
        cases hclass : n.isClass <;> simp [Source.openings, hclass] at hp
        obtain rfl := hp
        exact ⟨hn n rfl, hclass⟩
      | library _ _ => simp [Source.openings] at hp

theorem grows {P : Source → Prop} {d' : Draft} (hw : d.Waits ix roots) (hg : d.Grows P d')
    (hp : ∀ n : Node, P (.node n) → n.Needed ix.get? roots) : d'.Waits ix roots := by
  induction hg with
  | refl => exact hw
  | tail _ hs ih =>
    obtain ⟨src, hsrc, -, ha⟩ := hs
    exact ih.adds ha fun n hn => hp n (hn ▸ hsrc)

theorem fill {h : Handle} {n : Node} {rest : List (Handle × Node)} {d' : Draft}
    (hw : d.Waits ix roots) (hq : d.queue = (h, n) :: rest)
    (hf : fillMembers ix { d with queue := rest } h n = .ok d') : d'.Waits ix roots := by
  obtain ⟨hn, hclass⟩ := hw.queue (h, n) (by rw [hq]; exact List.mem_cons_self)
  have hrest : { d with queue := rest }.Waits ix roots :=
    ⟨hw.bounded, fun p hp => hw.queue p (hq ▸ List.mem_cons_of_mem _ hp)⟩
  obtain ⟨d₁, attributes, generalizations, hg, -, -, rfl⟩ := fillMembers_spec hrest.bounded hf
  have hw₁ := hrest.grows hg fun m hm => hn.of_cites hclass hm
  refine ⟨fun key a ha => ?_, hw₁.queue⟩
  have hlt := hw₁.bounded key a ha
  simpa using hlt

theorem places {n : Node} {h : Handle} {d' : Draft} (hw : d.Waits ix roots) (hn : n ∈ roots)
    (hp : Places ix n d d' h) : d'.Waits ix roots := by
  cases hp with
  | known _ _ => exact hw
  | type _ _ adds => exact hw.adds adds fun m hm => Source.node.inj hm ▸ .root hn
  | association kind _ ends adds _ _ =>
    have ha : n.isAssociation = true := by simpa [Node.isAssociation] using kind
    have hends (m : Node) (h : ∃ c ∈ n.children "ownedEnd", c.TypedBy ix (.node m)) :
        m.Needed ix.get? roots := by
      obtain ⟨c, hc, htyped⟩ := h
      rw [← Node.propertyNodes_of_isAssociation ha] at hc
      exact (Node.Needed.root hn).of_typedBy hc htyped
    exact (hw.grows ends hends).adds adds fun m hm => Source.node.inj hm ▸ .root hn

end Waits

theorem exists_drain (hall : ∀ n : Node, n.Needed ix.get? roots → n.Sound ix.get?)
    (hw : d.Waits ix roots) : ∃ d', drain ix d = .ok d' := by
  fun_induction drain ix d with
  | case1 d hq => exact ⟨d, rfl⟩
  | case2 d h n rest hq f hf =>
    obtain ⟨hn, hclass⟩ := hw.queue (h, n) (by rw [hq]; exact List.mem_cons_self)
    obtain ⟨d', hd'⟩ := exists_fillMembers hall (d := { d with queue := rest }) (h := h) hn hclass
    rw [hf] at hd'
    cases hd'
  | case3 d h n rest hq d₁ hf ih => exact ih (hw.fill hq hf)

theorem exists_addRoots (hall : ∀ n : Node, n.Needed ix.get? roots → n.Sound ix.get?)
    {rest : List Node} (hrest : rest ⊆ roots) (hw : d.Waits ix roots) (position : Nat) :
    ∃ d', addRoots ix d position rest = .ok d' := by
  induction rest generalizing d position with
  | nil => exact ⟨d, rfl⟩
  | cons n rest ih =>
    have hn := hrest List.mem_cons_self
    obtain ⟨⟨d₁, h⟩, h₁⟩ := exists_rootFor hall (d := d) hn position
    have hw₁ : { d₁ with model := d₁.model.addRoot h }.Waits ix roots :=
      have hp := hw.places hn (rootFor_places hw.bounded h₁)
      ⟨hp.bounded, hp.queue⟩
    obtain ⟨d₂, h₂⟩ := exists_drain hall hw₁
    have hw₂ : d₂.Waits ix roots :=
      (drain_run (I := fun d => d.Waits ix roots)
        (fun _ _ _ _ _ hw hq hf => hw.fill hq hf) hw₁ h₂).1
    have hlater := ih (List.subset_of_cons_subset hrest) hw₂ (position + 1)
    exact exists_outcome_bind.mpr ⟨(d₁, h), h₁, exists_outcome_bind.mpr ⟨d₂, h₂, hlater⟩⟩

end Draft

/-- A class model can be read when all nodes that it needs are sound. -/
theorem Model.exists_ofNodes {ix : IdIndex} {roots : List Node}
    (hall : ∀ n : Node, n.Needed ix.get? roots → n.Sound ix.get?) :
    ∃ m, Model.ofNodes ix roots = .ok m := by
  obtain ⟨d, hd⟩ :=
    Draft.exists_addRoots hall (List.Subset.refl roots) (Draft.Waits.start ix roots) 0
  exact ⟨d.model, ofNodes_eq_ok.mpr ⟨d, hd, rfl⟩⟩

end ClassGrammar
