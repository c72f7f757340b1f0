import ClassGrammar.Proofs.Models.FilledMembers
import ClassGrammar.Proofs.Linking.RunsLinkAll
import ClassGrammar.Proofs.Outlines.AttributePlacement

/-! Which top-level nodes a grammar declares. Each of them declares what it states, unless its
identifier belongs to something else that takes its place. -/
namespace ClassGrammar

namespace Source

def kind? : Source → Option String
  | node n => n.kind?
  | library _ kind => some kind.text

def name? : Source → Option String
  | node n => n.name?
  | library href _ => some (libraryName href)

/-- The names of the literals, which a library type has none of. -/
def literalNames : Source → List (Option String)
  | node n => (n.children "ownedLiteral").map Node.name?
  | library _ _ => []

/-- Whether the element is a class, an interface or a data type whose name is not primitive. -/
def declaresInterface (src : Source) : Bool :=
  src.kind? = some "uml:Class" ∨ src.kind? = some "uml:Interface" ∨
    src.kind? = some "uml:DataType" ∧ src.name?.bind Primitive.ofTypeName? = none

def declaresUnion (src : Source) : Bool := src.kind? = some "uml:Enumeration"

namespace Heads

variable {src : Source} {e : Element}

theorem kind (h : src.Heads e) : src.kind? = some e.form.kindText := by
  cases src with
  | node n => exact Node.Declares.kind h
  | library href kind =>
    cases h
    rw [TypeKind.kindText_form]
    rfl

theorem name (h : src.Heads e) (hk : src.kind? ≠ some "uml:Association") :
    src.name? = some e.name := by
  cases src with
  | node n =>
    rcases Node.Declares.name h with hn | ⟨ha, -⟩
    · exact hn
    · exact absurd ha hk
  | library href kind =>
    cases h
    rfl

theorem literals (h : src.Heads e) {ls : List Literal} (hf : e.form = .enumeration ls) :
    (ls.map (·.name)).map some = src.literalNames := by
  cases src with
  | node n =>
    have hls := Node.Declares.literals h ls hf
    simp only [literalNames]
    generalize n.children "ownedLiteral" = cs at hls
    clear hf
    induction hls with
    | nil => rfl
    | cons hl _ ih => rw [List.map_cons, List.map_cons, List.map_cons, ih, hl.name]
  | library href kind =>
    cases h
    cases kind <;> cases hf
    rfl

theorem declaresInterface (h : src.Heads e) :
    src.declaresInterface = e.declaresInterface := by
  have hk := h.kind
  unfold Source.declaresInterface Element.declaresInterface
  cases hf : e.form with
  | classifier isInterface _ _ => cases isInterface <;> simp [hk, hf, Form.kindText]
  | dataType =>
    have hn := h.name (by rw [hk, hf]; decide)
    cases hp : Primitive.ofTypeName? e.name <;> simp [hk, hf, hn, hp, Form.kindText]
  | _ => simp [hk, hf, Form.kindText]

theorem name_of_declaresInterface (h : src.Heads e) (hd : src.declaresInterface = true) :
    src.name? = some e.name := by
  simp only [Source.declaresInterface, decide_eq_true_eq] at hd
  rcases hd with hk | hk | ⟨hk, -⟩ <;> exact h.name (by rw [hk]; decide)

/-- The union of the element, by the names that its source states. -/
theorem union {m : Model} {a : Handle} (h : src.Heads e) (he : m.element a = e) :
    (m.union? a).map (fun u => (some u.name, u.literals.map some)) =
      if src.declaresUnion then some (src.name?, src.literalNames) else none := by
  have hk := h.kind
  unfold Source.declaresUnion Model.union?
  rw [he]
  cases hf : e.form with
  | enumeration ls =>
    have hn := h.name (by simp [hk, hf, Form.kindText])
    simp [hk, hf, hn, ← h.literals hf, Form.kindText]
  | classifier isInterface _ _ => cases isInterface <;> simp [hk, hf, Form.kindText]
  | _ => simp [hk, hf, Form.kindText]

end Heads
end Source

/-- Whether a grammar declares just what some sources state: interfaces by their names, and unions
by their names with the names of their literals, all in the order of the sources. -/
def Grammar.Declares (g : Grammar) (srcs : List Source) : Prop :=
  g.interfaces.map (fun i => some i.name) =
      (srcs.filter Source.declaresInterface).map Source.name? ∧
    g.unions.map (fun u => (some u.name, u.literals.map some)) =
      (srcs.filter Source.declaresUnion).map fun src => (src.name?, src.literalNames)

instance (g : Grammar) (srcs : List Source) : Decidable (g.Declares srcs) :=
  inferInstanceAs (Decidable (_ ∧ _))

namespace Model

variable {m : Model} {hs : List Handle} {srcs : List Source}

theorem declaring_names
    (hl : List.Forall₂ (fun h src => src.Heads (m.element h)) hs srcs) :
    (m.declaring hs).map (fun h => some (m.element h).name) =
      (srcs.filter Source.declaresInterface).map Source.name? := by
  induction hl with
  | nil => rfl
  | @cons h src _ _ hh _ ih =>
    simp only [declaring] at ih
    rw [declaring, List.filter_cons, List.filter_cons, ← hh.declaresInterface]
    cases hd : src.declaresInterface with
    | true => simp [ih, hh.name_of_declaresInterface hd]
    | false => simpa using ih

theorem union_names
    (hl : List.Forall₂ (fun h src => src.Heads (m.element h)) hs srcs) :
    (hs.filterMap m.union?).map (fun u => (some u.name, u.literals.map some)) =
      (srcs.filter Source.declaresUnion).map fun src => (src.name?, src.literalNames) := by
  induction hl with
  | nil => rfl
  | @cons h src _ _ hh _ ih =>
    have hu := hh.union rfl
    rw [List.filterMap_cons, List.filter_cons]
    cases hd : src.declaresUnion with
    | true =>
      rw [hd] at hu
      obtain ⟨u, hu, hnames⟩ := Option.map_eq_some_iff.mp hu
      simp [hu, hnames, ih]
    | false =>
      rw [hd] at hu
      simp [Option.map_eq_none_iff.mp hu, ih]

end Model

/-- Whether a source can have the place of a top-level node. Besides the node itself this can be
what else its identifier leads to. -/
def Node.CedesTo (roots : List Node) (n : Node) (src : Source) : Prop :=
  src = .node n ∨ ¬ n.OwnsId roots ∧ src.Reached roots ∧ ∃ id, n.id? = some id ∧ src.key? = some id

namespace Draft.Rooted

variable {roots : List Node} {placed : List (Node × Handle)} {srcs tops : List Source} {d : Draft}

/-- At the end of a run each top-level node has an element, with a source in its place. -/
theorem exists_tops (hr : d.Rooted roots placed srcs) :
    ∃ tops, List.Forall₂ (fun p src => srcs[p.2]? = some src ∧ Node.CedesTo roots p.1 src ∧
      src.Heads (d.model.element p.2)) placed tops := by
  refine exists_forall₂ fun p hp => ?_
  obtain ⟨src, hsrc, hn⟩ := hr.tops p hp
  refine ⟨src, hsrc, ?_, hr.traced.heads_element hsrc⟩
  rcases hn with rfl | ⟨id, hid, hkey⟩
  · exact .inl rfl
  · have hreached := (hr.traced.known p.2 src hsrc).reached
    by_cases ho : p.1.OwnsId roots
    · exact .inl (ho.eq_node hid hkey hreached)
    · exact .inr ⟨ho, hreached, id, hid, hkey⟩

/-- The source in the place of a node is the one for which the nodes before it decide. -/
theorem takesPlace (hr : d.Rooted roots placed srcs)
    (ht : List.Forall₂ (fun p src => srcs[p.2]? = some src) placed tops) {before after : List Node}
    {n : Node} (hp : placed.map Prod.fst = before ++ n :: after) :
    ∃ m src, Model.ofNodes (.ofRoots roots) before = .ok m ∧ tops[before.length]? = some src ∧
      src.TakesPlace m n := by
  obtain ⟨first, second, rfl, rfl, hsecond⟩ := List.map_eq_append_iff.mp hp
  obtain ⟨p, rest, rfl, rfl, -⟩ := List.map_eq_cons_iff.mp hsecond
  obtain ⟨m, src, hm, hsrc, htakes⟩ := hr.decided first p rest rfl
  have hlt : first.length < (first ++ p :: rest).length := by simp
  have hlt' : first.length < tops.length := ht.length_eq ▸ hlt
  have htop := ht.get hlt hlt'
  simp only [List.get_eq_getElem, List.getElem_append_right (Nat.le_refl _), Nat.sub_self,
    List.getElem_cons_zero] at htop
  refine ⟨m, src, hm, ?_, htakes⟩
  rw [List.length_map, List.getElem?_eq_getElem hlt', ← htop, hsrc]

end Draft.Rooted

/-- Linking changes no declaration of an outline. -/
theorem Grammar.declares_of_heads {s : Settings} {m : Model} {o : Outline} {g : Grammar}
    {tops : List Source} (ht : List.Forall₂ (fun h src => src.Heads (m.element h)) m.roots tops)
    (ho : Outline.ofModel s m = .ok o) (hg : o.grammar.linked o.pending = .ok g) :
    g.dedupePrimitives.Declares tops := by
  obtain ⟨hi, hu⟩ := Outline.finished_of_ofModel ho
  have hl := links_of_linked hg
  have hnames : g.interfaces.map (fun i => some i.name) =
      (o.grammar.interfaces.map (·.name)).map some := by
    rw [← hl.names, List.map_map]
    rfl
  refine ⟨?_, ?_⟩
  · rw [← Model.declaring_names ht]
    refine hnames.trans ?_
    rw [hi, List.map_map, List.map_map]
    rfl
  · rw [← Model.union_names ht, ← hu, ← hl.unions]
    rfl

/-- A grammar declares the top-level nodes in their order. Only what has the identifier of a node,
when this is not its own, can take its place, and it does so when the nodes before have brought it
in first. -/
theorem transform_declares {s : Settings} {roots : List Node} {g : Grammar}
    (h : transform s roots = .ok g) :
    (∃ srcs, List.Forall₂ (Node.CedesTo roots) roots srcs ∧
      (∀ before n after, roots = before ++ n :: after →
        ∃ m src, Model.ofNodes (.ofRoots roots) before = .ok m ∧
          srcs[before.length]? = some src ∧ src.TakesPlace m n) ∧ g.Declares srcs) ∧
      ((∀ n ∈ roots, n.OwnsId roots) → g.Declares (roots.map .node)) := by
  obtain ⟨m, o, g', hm, ho, hg, rfl⟩ := transform_eq_ok.mp h
  obtain ⟨d, rfl, placed, srcs, hr, hp⟩ := Draft.rooted_of_ofNodes hm
  obtain ⟨tops, ht⟩ := hr.exists_tops
  have hheads : List.Forall₂ (fun h src => src.Heads (d.model.element h)) d.model.roots tops := by
    rw [hr.handles, List.forall₂_map_left_iff]
    exact ht.imp fun _ _ h => h.2.2
  have hplaces : List.Forall₂ (Node.CedesTo roots) roots tops := by
    rw [← hp, List.forall₂_map_left_iff, hp]
    exact ht.imp fun _ _ h => h.2.1
  have hdeclares := Grammar.declares_of_heads hheads ho hg
  have hdecided := fun before n after (he : roots = before ++ n :: after) =>
    hr.takesPlace (ht.imp fun _ _ h => h.1) (hp.trans he)
  refine ⟨⟨tops, hplaces, hdecided, hdeclares⟩, fun howns => ?_⟩
  -- A node that owns its identifier cedes its place to nothing, so the sources are the nodes.
  have hown := (List.forall₂_and_left roots tops).mpr ⟨howns, hplaces⟩
  have heq : List.Forall₂ Eq (roots.map Source.node) tops := by
    rw [List.forall₂_map_left_iff]
    exact hown.imp fun _ _ ⟨ho, hc⟩ => (hc.resolve_right fun hn => hn.1 ho).symm
  rw [List.forall₂_eq_eq_eq] at heq
  exact heq ▸ hdeclares

theorem machine_declares : transform {} machine = .ok machineGrammar ∧
    machineGrammar.Declares (machine.map .node) := by
  have hap : Node.Apart machine := by decide +kernel
  exact ⟨transform_machine, (transform_declares transform_machine).2 fun _ hn =>
    hap.ownsId (Node.mem_preorderAll_of_mem hn)⟩

/-- A class and a primitive type that comes before it with the same identifier. -/
def namesakes : List Node := [
  .mk [.text "@_xmi:type" "uml:PrimitiveType", .text "@_xmi:id" "x", .text "@_name" "P"],
  .mk [.text "@_xmi:type" "uml:Class", .text "@_xmi:id" "x", .text "@_name" "B"]]

/-- A class whose identifier is the reference of a library type. -/
def borrowed : List Node := [
  .mk [.text "@_xmi:type" "uml:Class", .text "@_xmi:id" "a", .text "@_name" "A",
    .one "ownedAttribute" (.mk [.text "@_name" "q",
      .one "type" (.mk [.text "@_xmi:type" "uml:PrimitiveType", .text "@_href" "x#String"])])],
  .mk [.text "@_xmi:type" "uml:Class", .text "@_xmi:id" "x#String", .text "@_name" "B"]]

theorem class_ceded :
    (∃ g, transform {} namesakes = .ok g ∧ ¬ g.Declares (namesakes.map .node)) ∧
      ∃ g, transform {} borrowed = .ok g ∧ ¬ g.Declares (borrowed.map .node) := by
  constructor
  · exact ⟨⟨"MyGrammar", "Model", [], [], []⟩, by decide +kernel, by decide +kernel⟩
  · exact ⟨⟨"MyGrammar", "Model", [⟨"A", [], [⟨"q", false, .simple (.primitive .string)⟩]⟩], [],
      [.string]⟩, by decide +kernel, by decide +kernel⟩

end ClassGrammar
