import ClassGrammar.Proofs.Documents.ElementTrees
import ClassGrammar.Transform

/-! A reader rebuilds the elements of a document from events that open and close them. Whatever
stands open around an element, its events add it to the innermost open one, with all that is inside
it. -/
namespace ClassGrammar

namespace Markup

/-- Whether events are those of a forest. An element without inner elements may come as one event,
and anything that says nothing may stand in between. -/
inductive Linear : List Tree → List Event → Prop
  | nil : Linear [] []
  | ignored {forest events} : Linear forest events → Linear forest (.ignored :: events)
  | childless (tag attributes) {forest events} :
      Linear forest events →
      Linear (⟨tag, attributes, []⟩ :: forest) (.childless tag attributes :: events)
  | element (tag attributes) {inner inside forest events} :
      Linear inner inside → Linear forest events →
      Linear (⟨tag, attributes, inner⟩ :: forest)
        (.opening tag attributes :: (inside ++ .closing :: events))

/-- Whether an element is open at the end of events, and all elements inside it are closed. -/
def InnermostOpen (tag : String) (events : List Event) : Prop :=
  ∃ before attributes inner inside, events = before ++ .opening tag attributes :: inside ∧
    Linear inner inside

theorem InnermostOpen.after {tag : String} {events : List Event} (h : InnermostOpen tag events)
    (front : List Event) : InnermostOpen tag (front ++ events) := by
  obtain ⟨before, attributes, inner, inside, rfl, hinside⟩ := h
  exact ⟨front ++ before, attributes, inner, inside, (List.append_assoc _ _ _).symm, hinside⟩

namespace Linear

/-- No event of a forest is broken. -/
theorem not_broken {forest : List Tree} {events : List Event} (h : Linear forest events) :
    ∀ fault, .broken fault ∉ events := by
  intro fault
  induction h with
  | nil => simp
  | ignored _ ih => simpa using ih
  | childless _ _ _ ih => simpa using ih
  | element _ _ _ _ ihInner ihForest => simp [ihInner, ihForest]

/-- Where the events of a forest are cut off, either all elements are closed or there is an
innermost one that is open. -/
theorem cut {forest : List Tree} {events front : List Event} (h : Linear forest events)
    (hfront : front <+: events) :
    (∃ closed, Linear closed front) ∨ ∃ tag, InnermostOpen tag front := by
  induction h generalizing front with
  | nil =>
    obtain rfl := List.prefix_nil.mp hfront
    exact .inl ⟨[], .nil⟩
  | ignored _ ih =>
    rcases List.prefix_cons_iff.mp hfront with rfl | ⟨rest, rfl, hrest⟩
    · exact .inl ⟨[], .nil⟩
    rcases ih hrest with ⟨closed, hclosed⟩ | ⟨tag, htag⟩
    · exact .inl ⟨closed, .ignored hclosed⟩
    · exact .inr ⟨tag, htag.after [.ignored]⟩
  | childless tag attributes _ ih =>
    rcases List.prefix_cons_iff.mp hfront with rfl | ⟨rest, rfl, hrest⟩
    · exact .inl ⟨[], .nil⟩
    rcases ih hrest with ⟨closed, hclosed⟩ | ⟨other, hother⟩
    · exact .inl ⟨_, .childless _ _ hclosed⟩
    · exact .inr ⟨other, hother.after [.childless tag attributes]⟩
  | @element tag attributes inner inside forest events hinner _ ihInner ihForest =>
    rcases List.prefix_cons_iff.mp hfront with rfl | ⟨rest, rfl, tail, htail⟩
    · exact .inl ⟨[], .nil⟩
    -- The cut lies inside the element, or after its end.
    rcases List.append_eq_append_iff.mp htail with ⟨more, hmore, -⟩ | ⟨rest, rfl, hrest⟩
    · rcases ihInner ⟨more, hmore.symm⟩ with ⟨closed, hclosed⟩ | ⟨other, hother⟩
      · exact .inr ⟨tag, [], attributes, closed, _, rfl, hclosed⟩
      · exact .inr ⟨other, hother.after [.opening tag attributes]⟩
    · rcases List.prefix_cons_iff.mp ⟨tail, hrest.symm⟩ with rfl | ⟨last, rfl, hlast⟩
      · rw [List.append_nil]
        exact .inr ⟨tag, [], attributes, inner, inside, rfl, hinner⟩
      rcases ihForest hlast with ⟨closed, hclosed⟩ | ⟨other, hother⟩
      · exact .inl ⟨_, .element _ _ hinner hclosed⟩
      · have hafter := hother.after (.opening tag attributes :: (inside ++ [.closing]))
        exact .inr ⟨other, by simpa using hafter⟩

end Linear
end Markup

namespace Document

open Markup

namespace Open

/-- What is open after the elements of a forest are added. -/
def attachAll (s : Open) (forest : List Tree) : Open :=
  forest.foldl (fun s t => s.attach t.tag t.node) s

theorem attachAll_outermost (root : Node) (forest : List Tree) :
    attachAll ⟨[], root⟩ forest = ⟨[], Tree.nodesInto root forest⟩ := by
  induction forest generalizing root with
  | nil => rfl
  | cons t rest ih => exact ih (root.pushChild t.tag t.node)

theorem attachAll_inside (tag : String) (n : Node) (outer : List (String × Node)) (root : Node)
    (forest : List Tree) : attachAll ⟨(tag, n) :: outer, root⟩ forest =
      ⟨(tag, Tree.nodesInto n forest) :: outer, root⟩ := by
  induction forest generalizing n with
  | nil => rfl
  | cons t rest ih => exact ih (n.pushChild t.tag t.node)

/-- Reading the events of a forest adds its elements to the innermost open one, and leaves the rest
to be read. -/
theorem run_linear {forest : List Tree} {events : List Event} (h : Linear forest events) (s : Open)
    (rest : List Event) : s.run (events ++ rest) = (s.attachAll forest).run rest := by
  induction h generalizing s rest with
  | nil => rfl
  | ignored _ ih => exact ih s rest
  | childless tag attributes _ ih => exact ih (s.attach tag (nodeOf attributes)) rest
  | @element tag attributes inner inside forest events _ _ ihInner ihForest =>
    have hopening : s.run ((.opening tag attributes :: (inside ++ .closing :: events)) ++ rest) =
        run ⟨(tag, nodeOf attributes) :: s.tags, s.root⟩
          (inside ++ (.closing :: (events ++ rest))) := by
      simp [run, step]
    rw [hopening, ihInner, attachAll_inside]
    exact ihForest (s.attach tag (Tree.node ⟨tag, attributes, inner⟩)) rest

/-- Reading stops at broken events alone. -/
theorem exists_run {events : List Event} (h : ∀ fault, .broken fault ∉ events) (s : Open)
    (rest : List Event) : ∃ s', s.run (events ++ rest) = run s' rest := by
  induction events generalizing s with
  | nil => exact ⟨s, rfl⟩
  | cons e events ih =>
    have hstep : ∃ s', s.step e = .ok s' := by
      cases e with
      | broken fault => exact absurd List.mem_cons_self (h fault)
      | closing => cases htags : s.tags <;> simp [step, htags]
      | _ => exact ⟨_, rfl⟩
    obtain ⟨s₁, hs₁⟩ := hstep
    obtain ⟨s', hs'⟩ := ih (fun fault hmem => h fault (List.mem_cons_of_mem e hmem)) s₁
    exact ⟨s', by rw [← hs', List.cons_append, run, hs₁]⟩

end Open

theorem ofEvents_innermostOpen {tag : String} {events : List Event}
    (h : ∀ fault, .broken fault ∉ events) (hopen : InnermostOpen tag events) :
    ofEvents events = .error (.unclosed tag) := by
  obtain ⟨before, attributes, inner, inside, rfl, hinside⟩ := hopen
  obtain ⟨s, hs⟩ := Open.exists_run (fun fault hmem => h fault (List.mem_append_left _ hmem)) {}
    (.opening tag attributes :: inside)
  have hrun : Open.run {} (before ++ .opening tag attributes :: inside) =
      .ok ⟨(tag, Tree.nodesInto (Open.nodeOf attributes) inner) :: s.tags, s.root⟩ := by
    have hinner := Open.run_linear hinside ⟨(tag, Open.nodeOf attributes) :: s.tags, s.root⟩ []
    rw [List.append_nil, Open.attachAll_inside] at hinner
    exact hs.trans hinner
  rw [ofEvents, hrun]

/-- A reader rebuilds a forest of elements from its events. When the events end early, and leave
elements open, it gives no document and names the innermost of these elements. -/
theorem ofEvents_linear {forest : List Tree} {events : List Event}
    (hproper : ∀ t ∈ forest, t.Proper) (h : Linear forest events) :
    (∃ d, ofEvents events = .ok d ∧ d.root.Holds [] forest) ∧
    ∀ front, front <+: events →
      ((∃ closed, Linear closed front) ∨ ∃ tag, InnermostOpen tag front) ∧
      ∀ tag, InnermostOpen tag front → (ofEvents front).mapError DocumentFault.toFault =
        .error (.xml ("Unclosed element <" ++ tag ++ ">")) := by
  refine ⟨⟨⟨Tree.nodesInto .empty forest⟩, ?_, ?_⟩,
    fun front hfront => ⟨h.cut hfront, fun tag hopen => ?_⟩⟩
  · have hrun := Open.run_linear h {} []
    rw [List.append_nil, Open.attachAll_outermost] at hrun
    rw [ofEvents, hrun]
    rfl
  · have hnames : (([] : List (String × String)).map (·.1)).Nodup := List.nodup_nil
    exact Tree.holds_nodesInto hnames (fun t ht => (hproper t ht).tag)
      fun t ht => (hproper t ht).holds
  · have hbroken (fault : DocumentFault) : .broken fault ∉ front :=
      fun hmem => h.not_broken fault (hfront.subset hmem)
    rw [ofEvents_innermostOpen hbroken hopen]
    rfl

/-- Two books with a label between them. -/
def shelf : List Tree := [
  ⟨"shelf", [("place", "hall"), ("rows", "2")], [
    ⟨"book", [("title", "A & B")], [⟨"page", [], []⟩]⟩,
    ⟨"label", [], []⟩,
    ⟨"book", [], []⟩]⟩]

def shelfEvents : List Event := [
  .ignored,
  .opening "shelf" [("place", "hall"), ("rows", "2")],
  .opening "book" [("title", "A & B")], .ignored, .childless "page" [], .closing,
  .childless "label" [],
  .opening "book" [], .ignored, .closing,
  .closing, .ignored]

theorem shelf_rebuilt : (∀ t ∈ shelf, t.Proper) ∧ Linear shelf shelfEvents ∧
    (∃ d, ofEvents shelfEvents = .ok d ∧ d.root.Holds [] shelf) ∧
    (ofEvents (shelfEvents.take 5)).mapError DocumentFault.toFault =
      .error (.xml "Unclosed element <book>") := by
  have hempty {tag : String} (htag : Node.IsTag tag) : Tree.Proper ⟨tag, [], []⟩ :=
    .intro htag List.nodup_nil nofun
  have hproper : ∀ t ∈ shelf, t.Proper := by
    simp only [shelf, List.forall_mem_singleton]
    refine .intro (by decide) (by decide) ?_
    simp only [List.forall_mem_cons]
    refine ⟨.intro (by decide) (by decide) ?_, hempty (by decide), hempty (by decide), nofun⟩
    simpa only [List.forall_mem_singleton] using hempty (by decide)
  have hlinear : Linear shelf shelfEvents := by
    have hinner := Linear.element "book" [("title", "A & B")]
      (.ignored (.childless "page" [] .nil))
      (.childless "label" [] (.element "book" [] (.ignored .nil) .nil))
    exact .ignored (.element "shelf" [("place", "hall"), ("rows", "2")] hinner (.ignored .nil))
  obtain ⟨hread, hcut⟩ := ofEvents_linear hproper hlinear
  refine ⟨hproper, hlinear, hread, (hcut _ (List.take_prefix 5 _)).2 "book" ?_⟩
  exact ⟨[.ignored, .opening "shelf" [("place", "hall"), ("rows", "2")]], [("title", "A & B")],
    _, _, rfl, .ignored (.childless _ _ .nil)⟩

end Document
end ClassGrammar
