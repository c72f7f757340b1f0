import ClassGrammar.Proofs.Outlines.DescribedElements
import ClassGrammar.Proofs.Outlines.ListedPrimitives

/-! The outcome of a run in terms of the top-level nodes alone: when it succeeds, and what its
grammar is but for targets. -/
namespace ClassGrammar

namespace Node

/-- The name under which a top-level node is declared. -/
def declaredName? (n : Node) : Option String :=
  if n.declaresInterface then some (n.name?.getD "") else n.union?.map (·.name)

/-- Whether the declarations and the associations of top-level nodes fit together. -/
structure Outlined (find : String → Option Node) (s : Settings) (roots : List Node) : Prop where
  unique : (roots.filterMap declaredName?).Nodup
  arity : ∀ n ∈ roots, n.isAssociation = true → s.associationArity = .lenient ∨
    n.navigableTokens.length = 1 ∨ n.navigableTokens.length = 2
  owned : ∀ pair ∈ roots.flatMap (navigated find), ∃ n ∈ roots,
    n.declaresInterface = true ∧ n.isTypeOf pair.2 = true

/-- The grammar of some top-level nodes without targets. -/
def grammar (find : String → Option Node) (s : Settings) (roots : List Node) : Grammar where
  name := s.grammarName
  entryRule := s.entryRule
  interfaces :=
    (roots.filter declaresInterface).map (interface find s (roots.filter isAssociation))
  unions := roots.filterMap union?

end Node

namespace Model.ReadFrom

variable {roots : List Node} {srcs : List Source} {m : Model} {s : Settings}

theorem declares_eq (hm : m.ReadFrom roots srcs) {h : Handle} {n : Node}
    (hsrc : srcs[h]? = some (.node n)) :
    n.declaresInterface = (m.element h).declaresInterface :=
  (hm.heads h _ hsrc).declaresInterface

theorem declaredName?_eq (hm : m.ReadFrom roots srcs) {h : Handle} {n : Node}
    (hsrc : srcs[h]? = some (.node n)) : n.declaredName? = m.declaredName? h := by
  unfold Node.declaredName? Model.declaredName?
  rw [← hm.declares_eq hsrc, hm.union?_eq hsrc]
  cases hd : n.declaresInterface with
  | true =>
    have hname : n.name? = some (m.element h).name :=
      (hm.heads h _ hsrc).name_of_declaresInterface hd
    simp [hname]
  | false => rfl

theorem acceptsArity_iff (hm : m.ReadFrom roots srcs) {h : Handle} {n : Node}
    (hsrc : srcs[h]? = some (.node n)) :
    (n.isAssociation = true → s.associationArity = .lenient ∨ n.navigableTokens.length = 1 ∨
      n.navigableTokens.length = 2) ↔ m.AcceptsArity s h := by
  unfold Model.AcceptsArity
  cases ha : n.isAssociation with
  | true =>
    obtain ⟨first, second, hf, -⟩ := hm.association hsrc ha
    rw [hf]
    constructor
    · rintro h _ _ _ ⟨⟩
      exact h rfl
    · intro h _
      exact h first second _ rfl
  | false =>
    have hd : n.Declares (m.element h) := hm.heads h _ hsrc
    simp only [Bool.false_eq_true, false_implies, true_iff]
    intro first second tokens hf
    simp [Node.isAssociation, hd.kind, hf, Form.kindText] at ha

/-- An end has a receiver when its opposite end states a node that declares an interface. -/
theorem receiver_iff (hm : m.ReadFrom roots srcs) {pair : Node × Node} {e : NavigableEnd}
    (he : EndFrom s roots srcs m pair e) :
    (∃ n ∈ roots, n.declaresInterface = true ∧ n.isTypeOf pair.2 = true) ↔
      e.receiver ∈ m.declaring m.roots := by
  unfold Model.declaring
  rw [List.mem_filter]
  constructor
  · rintro ⟨n, hn, hd, ht⟩
    obtain ⟨h, hh, hsrc⟩ := exists_of_forall₂ hm.tops hn
    rw [(he.receiver h n hsrc).mpr ht]
    exact ⟨hh, (hm.declares_eq hsrc).symm.trans hd⟩
  · rintro ⟨hmem, hd⟩
    obtain ⟨n, hn, hsrc⟩ := exists_of_forall₂ hm.tops.flip hmem
    exact ⟨n, hn, (hm.declares_eq hsrc).trans hd, (he.receiver _ n hsrc).mp rfl⟩

theorem admits_iff (hm : m.ReadFrom roots srcs) :
    Node.Outlined (IdIndex.ofRoots roots).get? s roots ↔ m.Admits s := by
  have hnames : roots.filterMap Node.declaredName? = m.roots.filterMap m.declaredName? :=
    filterMap_eq_of_forall₂ (hm.tops.imp fun _ _ => hm.declaredName?_eq)
  have harity := forall_iff_of_forall₂ (hm.tops.imp fun _ _ => hm.acceptsArity_iff (s := s))
  have howned := forall_iff_of_forall₂
    ((List.rel_flatMap hm.tops fun _ _ => hm.ends_from s).imp fun _ _ => hm.receiver_iff)
  constructor
  · intro h
    exact ⟨hnames ▸ h.unique, harity.mp h.arity, howned.mp h.owned⟩
  · intro h
    exact ⟨hnames ▸ h.unique, harity.mpr h.arity, howned.mpr h.owned⟩

/-- The declarations of an outline are those that the nodes describe. -/
theorem outline_eq (hm : m.ReadFrom roots srcs) {o : Outline} (ho : Outline.ofModel s m = .ok o) :
    o.grammar.interfaces = (Node.grammar (IdIndex.ofRoots roots).get? s roots).interfaces ∧
      o.grammar.unions = (Node.grammar (IdIndex.ofRoots roots).get? s roots).unions := by
  obtain ⟨hi, hu⟩ := Outline.finished_of_ofModel ho
  have hdeclaring := List.rel_filter (p := Node.declaresInterface)
    (q := fun h => (m.element h).declaresInterface)
    (fun n h hsrc => by simp [hm.declares_eq hsrc]) hm.tops
  constructor
  · rw [hi]
    refine (map_eq_iff_forall₂.mpr (forall₂_imp_of_mem hdeclaring ?_)).symm
    intro n hn h hsrc
    exact (hm.withEnds_eq hsrc (List.mem_filter.mp hn).2 s).symm
  · rw [hu]
    exact (filterMap_eq_of_forall₂ (hm.tops.imp fun _ _ hsrc => (hm.union?_eq hsrc).symm)).symm

end Model.ReadFrom

/-- Whether a grammar is closed depends on its declarations, in whatever order. -/
theorem Grammar.closed_congr {g g' : Grammar} (hi : g.interfaces.Perm g'.interfaces)
    (hu : g.unions.Perm g'.unions) : g.Closed ↔ g'.Closed := by
  have hnames := hi.map (·.name)
  have hdeclared : g.declared.Perm g'.declared := hnames.append (hu.map (·.name))
  have hsuperTypes : (∀ i ∈ g.interfaces, ∀ ref ∈ i.superTypes,
      ref.name ∈ g.interfaces.map (·.name)) ↔ ∀ i ∈ g'.interfaces, ∀ ref ∈ i.superTypes,
        ref.name ∈ g'.interfaces.map (·.name) := by
    simp only [hi.mem_iff, hnames.mem_iff]
  have htypes : (∀ i ∈ g.interfaces, ∀ a ∈ i.attributes, ∀ ref, a.type.typeRef? = some ref →
      ref.name ∈ g.declared) ↔ ∀ i ∈ g'.interfaces, ∀ a ∈ i.attributes, ∀ ref,
        a.type.typeRef? = some ref → ref.name ∈ g'.declared := by
    simp only [hi.mem_iff, hdeclared.mem_iff]
  constructor
  · intro h
    exact ⟨hsuperTypes.mp h.superTypes, htypes.mp h.types⟩
  · intro h
    exact ⟨hsuperTypes.mpr h.superTypes, htypes.mpr h.types⟩

section Transform

variable {s : Settings} {roots : List Node}

/-- A run succeeds when all needed nodes are sound, the declarations fit together, and their grammar
is closed. -/
theorem exists_transform_iff (hap : Node.Apart roots) (hagree : Node.HrefsAgree roots) :
    (∃ g, transform s roots = .ok g) ↔
      (∀ n : Node, n.Needed (IdIndex.ofRoots roots).get? roots →
        n.Sound (IdIndex.ofRoots roots).get?) ∧
      Node.Outlined (IdIndex.ofRoots roots).get? s roots ∧
        (Node.grammar (IdIndex.ofRoots roots).get? s roots).Closed := by
  rw [← Model.exists_ofNodes_iff hap hagree]
  constructor
  · rintro ⟨g, hg⟩
    obtain ⟨m, o, g', hread, ho, hlinked, -⟩ := transform_eq_ok.mp hg
    obtain ⟨srcs, hm⟩ := Model.exists_readFrom hap hagree hread
    obtain ⟨hi, hu⟩ := hm.outline_eq ho
    have hclosed := (Outline.recorded_of_ofModel ho).exists_linked_iff.mp ⟨g', hlinked⟩
    exact ⟨⟨m, hread⟩, hm.admits_iff.mpr (Outline.exists_ofModel_iff.mp ⟨o, ho⟩),
      (Grammar.closed_congr (.of_eq hi) (.of_eq hu)).mp hclosed⟩
  · rintro ⟨⟨m, hread⟩, houtlined, hclosed⟩
    obtain ⟨srcs, hm⟩ := Model.exists_readFrom hap hagree hread
    obtain ⟨o, ho⟩ := Outline.exists_ofModel_iff.mpr (hm.admits_iff.mp houtlined)
    obtain ⟨hi, hu⟩ := hm.outline_eq ho
    obtain ⟨g', hlinked⟩ := (Outline.recorded_of_ofModel ho).exists_linked_iff.mpr
      ((Grammar.closed_congr (.of_eq hi) (.of_eq hu)).mpr hclosed)
    exact ⟨_, transform_eq_ok.mpr ⟨m, o, g', hread, ho, hlinked, rfl⟩⟩

/-- But for targets, the grammar of a run is that of the nodes, with its primitive types listed. -/
theorem transform_eq_grammar (hap : Node.Apart roots) (hagree : Node.HrefsAgree roots)
    {g : Grammar} (hg : transform s roots = .ok g) :
    g.interfaces.map Interface.unlinked =
        (Node.grammar (IdIndex.ofRoots roots).get? s roots).interfaces ∧
      g.unions = (Node.grammar (IdIndex.ofRoots roots).get? s roots).unions ∧
      ∀ p, p ∈ g.primitives ↔
        p ∈ primitivesOf (Node.grammar (IdIndex.ofRoots roots).get? s roots).interfaces := by
  obtain ⟨m, o, g', hread, ho, hlinked, rfl⟩ := transform_eq_ok.mp hg
  obtain ⟨srcs, hm⟩ := Model.exists_readFrom hap hagree hread
  obtain ⟨hi, hu⟩ := hm.outline_eq ho
  have hrecorded := Outline.recorded_of_ofModel ho
  obtain rfl := hrecorded.eq_resolved hlinked
  have hunlinked : o.grammar.resolved.unlinked = o.grammar := by
    rw [Grammar.unlinked_resolved, hrecorded.unlinked_grammar]
  refine ⟨?_, hu, fun p => ?_⟩
  · rw [← hi]
    exact congrArg Grammar.interfaces hunlinked
  · rw [← hi]
    exact Primitive.mem_dedupe.trans (Outline.noted_of_ofModel ho).mem_iff

end Transform
end ClassGrammar
