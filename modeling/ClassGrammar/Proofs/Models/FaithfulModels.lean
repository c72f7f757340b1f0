import ClassGrammar.Proofs.Models.FilledMembers

/-! A class model states what the trees of its top-level nodes state, and each node once, however
the nodes refer to each other. -/
namespace ClassGrammar

namespace Model

/-- Whether an element comes from a node: from the top-level node at the position of its handle, or
from the node with the identifier under which it is found. -/
inductive ComesFrom (roots : List Node) (m : Model) (h : Handle) (n : Node) : Prop
  | top {i : Nat} (node : roots[i]? = some n) (handle : m.roots[i]? = some h)
  | identified {id : String} (mem : n ∈ Node.preorderAll roots) (carries : n.id? = some id)
      (found : m.lookup id = some h)

/-- The model that the trees of some nodes state. No node is read twice, top-level elements stand in
the order of their nodes, and all members are those of the node that an element comes from. -/
structure Faithful (roots : List Node) (m : Model) : Prop where
  once : (m.elements.filterMap (·.id)).Nodup
  registered : ∀ h e id, m.elements[h]? = some e → e.id = some id → m.lookup id = some h
  found : ∀ id h, m.lookup id = some h → ∃ e, m.elements[h]? = some e ∧
    (e.id = some id ∨ e.id = none ∧ id ∈ Node.libraryHrefs roots)
  tops : List.Forall₂ (fun n h => ∃ e, m.elements[h]? = some e ∧ n.Declares e) roots m.roots
  states : ∀ h n, m.ComesFrom roots h n → ∃ e, m.elements[h]? = some e ∧ n.Declares e ∧
    n.StatesMembers m h e
  origins : ∀ h e, m.elements[h]? = some e → (∃ n, m.ComesFrom roots h n) ∨
    ∃ href, ∃ kind : TypeKind, href ∈ Node.libraryHrefs roots ∧ m.lookup href = some h ∧
      e = ⟨none, libraryName href, .publicAccess, kind.form []⟩

/-- Elements that are found under their identifiers have distinct identifiers. -/
theorem nodup_of_registered {m : Model}
    (hr : ∀ h e id, m.elements[h]? = some e → e.id = some id → m.lookup id = some h) :
    (m.elements.filterMap (·.id)).Nodup := by
  refine List.pairwise_filterMap.mpr (List.pairwise_iff_getElem.mpr ?_)
  intro i j hi hj hij x hx y hy hxy
  have hlx := hr i _ x (List.getElem?_eq_getElem hi) hx
  have hly := hr j _ y (List.getElem?_eq_getElem hj) hy
  rw [hxy, hly] at hlx
  exact Nat.ne_of_gt hij (Option.some.inj hlx)

end Model

namespace Draft.Rooted

variable {roots : List Node} {placed : List (Node × Handle)} {srcs : List Source} {d : Draft}

theorem source_of_placed (hr : d.Rooted roots placed srcs) (hap : Node.Apart roots) {n : Node}
    {h : Handle} (hn : n ∈ roots) (hp : (n, h) ∈ placed) : srcs[h]? = some (.node n) := by
  obtain ⟨src, hsrc, rfl | ⟨id, hid, hkey⟩⟩ := hr.tops _ hp
  · exact hsrc
  · have hown := hap.ownsId (Node.mem_preorderAll_of_mem hn)
    rw [hsrc, hown.eq_node hid hkey (hr.traced.known h src hsrc).reached]

theorem source_of_comesFrom (hr : d.Rooted roots placed srcs) (hap : Node.Apart roots)
    (hp : placed.map Prod.fst = roots) {n : Node} {h : Handle}
    (hc : d.model.ComesFrom roots h n) : srcs[h]? = some (.node n) := by
  cases hc with
  | @top i node handle =>
    rw [hr.handles, List.getElem?_map] at handle
    rw [← hp, List.getElem?_map] at node
    obtain ⟨p, hi, rfl⟩ := Option.map_eq_some_iff.mp handle
    rw [hi] at node
    cases node
    have hmem := List.mem_of_getElem? hi
    exact hr.source_of_placed hap (hp ▸ List.mem_map_of_mem hmem) hmem
  | identified mem carries found =>
    obtain ⟨src, hsrc, hkey⟩ := hr.traced.keyed _ _ found
    rw [hsrc, (hap.ownsId mem).eq_node carries hkey (hr.traced.known h src hsrc).reached]

theorem comesFrom_of_source (hr : d.Rooted roots placed srcs) (hap : Node.Apart roots)
    (hp : placed.map Prod.fst = roots) {n : Node} {h : Handle}
    (hsrc : srcs[h]? = some (.node n)) : d.model.ComesFrom roots h n := by
  have hk := hr.traced.known h _ hsrc
  have hmem := hk.reached.mem
  rcases hk with ⟨-, id, hid⟩ | ⟨m, -, he, hm⟩
  · have hcarries := (IdIndex.get?_mem hid).2
    exact .identified hmem hcarries
      ((hr.traced.settled hap).registered h _ id hsrc hcarries)
  · cases he
    obtain ⟨i, hi⟩ := List.getElem?_of_mem hm
    exact .top (by rw [← hp, List.getElem?_map, hi]; rfl)
      (by rw [hr.handles, List.getElem?_map, hi]; rfl)

theorem states_of_source (hr : d.Rooted roots placed srcs) (hap : Node.Apart roots) {n : Node}
    {h : Handle} (hsrc : srcs[h]? = some (.node n)) :
    ∃ e, d.model.elements[h]? = some e ∧ n.Declares e ∧ n.StatesMembers d.model h e := by
  have he := List.getElem?_eq_getElem (hr.traced.lt_size hsrc)
  refine ⟨_, he, hr.traced.heads h _ _ hsrc he, ?_⟩
  rcases (hr.traced.settled hap).filled h n _ hsrc he with hcur | hqueue | hmembers
  · cases hcur
  · rw [hr.drained] at hqueue
    cases hqueue
  · exact hmembers

/-- Every element has a source. -/
theorem exists_source (hr : d.Rooted roots placed srcs) {h : Handle} {e : Element}
    (he : d.model.elements[h]? = some e) : ∃ src, srcs[h]? = some src ∧ src.Heads e := by
  have hlt : h < srcs.length := hr.traced.size ▸ (List.getElem?_eq_some_iff.mp he).1
  have hsrc := List.getElem?_eq_getElem hlt
  exact ⟨_, hsrc, hr.traced.heads h _ e hsrc he⟩

theorem registered (hr : d.Rooted roots placed srcs) (hap : Node.Apart roots) {h : Handle}
    {e : Element} {id : String} (he : d.model.elements[h]? = some e) (hid : e.id = some id) :
    d.model.lookup id = some h := by
  obtain ⟨src, hsrc, hh⟩ := hr.exists_source he
  refine (hr.traced.settled hap).registered h src id hsrc ?_
  cases src with
  | node n => exact hh.id.symm.trans hid
  | library href kind =>
    cases hh
    cases hid

theorem found (hr : d.Rooted roots placed srcs) {id : String} {h : Handle}
    (hl : d.model.lookup id = some h) : ∃ e, d.model.elements[h]? = some e ∧
      (e.id = some id ∨ e.id = none ∧ id ∈ Node.libraryHrefs roots) := by
  obtain ⟨src, hsrc, hkey⟩ := hr.traced.keyed id h hl
  have he := List.getElem?_eq_getElem (hr.traced.lt_size hsrc)
  have hh := hr.traced.heads h src _ hsrc he
  refine ⟨_, he, ?_⟩
  cases src with
  | node n => exact .inl (hh.id.trans hkey)
  | library href kind =>
    cases hkey
    rcases hr.traced.known h _ hsrc with hc | ⟨m, -, heq, -⟩
    · exact .inr ⟨by rw [hh], hc⟩
    · cases heq

theorem origin (hr : d.Rooted roots placed srcs) (hap : Node.Apart roots)
    (hp : placed.map Prod.fst = roots) {h : Handle} {e : Element}
    (he : d.model.elements[h]? = some e) : (∃ n, d.model.ComesFrom roots h n) ∨
      ∃ href, ∃ kind : TypeKind, href ∈ Node.libraryHrefs roots ∧ d.model.lookup href = some h ∧
        e = ⟨none, libraryName href, .publicAccess, kind.form []⟩ := by
  obtain ⟨src, hsrc, hh⟩ := hr.exists_source he
  cases src with
  | node n => exact .inl ⟨n, hr.comesFrom_of_source hap hp hsrc⟩
  | library href kind =>
    have hl := (hr.traced.settled hap).registered h _ href hsrc rfl
    rcases hr.traced.known h _ hsrc with hc | ⟨m, -, heq, -⟩
    · exact .inr ⟨href, kind, hc, hl, hh⟩
    · cases heq

end Draft.Rooted

namespace Model

/-- Reading nodes whose identifiers are apart gives the model that they state. Nodes may refer to
each other in any way: in cycles, by several ways to one node, and to themselves. -/
theorem faithful_of_ofNodes {roots : List Node} {m : Model} (hap : Node.Apart roots)
    (h : Model.ofNodes (.ofRoots roots) roots = .ok m) : m.Faithful roots := by
  obtain ⟨d, rfl, placed, srcs, hr, hp⟩ := Draft.rooted_of_ofNodes h
  have registered h e id (he : d.model.elements[h]? = some e) (hid : e.id = some id) :=
    hr.registered hap he hid
  have tops : List.Forall₂ (fun n h => ∃ e, d.model.elements[h]? = some e ∧ n.Declares e)
      (placed.map Prod.fst) (placed.map Prod.snd) := by
    rw [List.forall₂_map_left_iff, List.forall₂_map_right_iff, List.forall₂_same]
    intro p hmem
    have hn : p.1 ∈ roots := hp ▸ List.mem_map_of_mem hmem
    obtain ⟨e, he, hd, -⟩ := hr.states_of_source hap (hr.source_of_placed hap hn hmem)
    exact ⟨e, he, hd⟩
  exact {
    once := nodup_of_registered registered
    registered := registered
    found := fun _ _ hl => hr.found hl
    tops := by rwa [hp, ← hr.handles] at tops
    states := fun _ _ hc => hr.states_of_source hap (hr.source_of_comesFrom hap hp hc)
    origins := fun _ _ he => hr.origin hap hp he }

/-- Persons and houses refer to each other and to themselves, and to a nested class. -/
def householdNodes : List Node := [
  .mk [.text "@_xmi:type" "uml:Class", .text "@_xmi:id" "person", .text "@_name" "Person",
    .one "generalization" (.mk [.text "@_general" "thing"]),
    .many "ownedAttribute" [
      .mk [.text "@_name" "partner", .text "@_type" "person"],
      .mk [.text "@_type" "house"],
      .mk [.text "@_name" "name",
        .one "type" (.mk [.text "@_xmi:type" "uml:PrimitiveType", .text "@_href" "types#String"])]],
    .one "nestedClassifier" (.mk [.text "@_xmi:type" "uml:Class", .text "@_xmi:id" "thing",
      .text "@_name" "Thing",
      .one "ownedAttribute" (.mk [.text "@_name" "keeper", .text "@_type" "person"])])],
  .mk [.text "@_xmi:type" "uml:Class", .text "@_xmi:id" "house", .text "@_name" "House",
    .one "generalization" (.mk [.text "@_general" "thing"]),
    .one "ownedAttribute" (.mk [.text "@_name" "owner", .text "@_type" "person"])]]

def household : Model where
  elements := [
    ⟨some "person", "Person", .publicAccess, .classifier false [
      ⟨none, "partner", .publicAccess, .one, .plain, 0, none⟩,
      ⟨none, "house", .publicAccess, .one, .plain, 1, none⟩,
      ⟨none, "name", .publicAccess, .one, .plain, 2, none⟩] [⟨none, [3]⟩]⟩,
    ⟨some "house", "House", .publicAccess, .classifier false [
      ⟨none, "owner", .publicAccess, .one, .plain, 0, none⟩] [⟨none, [3]⟩]⟩,
    ⟨none, "String", .publicAccess, .primitiveType⟩,
    ⟨some "thing", "Thing", .publicAccess, .classifier false [
      ⟨none, "keeper", .publicAccess, .one, .plain, 0, none⟩] []⟩]
  roots := [0, 1]
  table := [("thing", 3), ("types#String", 2), ("house", 1), ("person", 0)]

theorem household_faithful : Node.Apart householdNodes ∧
    Model.ofNodes (.ofRoots householdNodes) householdNodes = .ok household ∧
      household.Faithful householdNodes := by
  have hap : Node.Apart householdNodes := by decide +kernel
  have hread : Model.ofNodes (.ofRoots householdNodes) householdNodes = .ok household := by
    decide +kernel
  exact ⟨hap, hread, faithful_of_ofNodes hap hread⟩

end Model
end ClassGrammar
