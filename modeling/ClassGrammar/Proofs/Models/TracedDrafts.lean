import ClassGrammar.Proofs.Nodes.IndexSearch
import ClassGrammar.Proofs.Models.ReadingFunctions
import ClassGrammar.Proofs.General.Lists

/-! What ties a draft to the nodes that it has been read from. Each element has a source, each key
leads to a source that has it, and the classes in the queue wait for the members of their nodes.
When identifiers are distinct, each source is registered, and what does not wait is complete. -/
namespace ClassGrammar

namespace Node

/-- The references of library types in the trees of some nodes. -/
def libraryHrefs (roots : List Node) : List String :=
  (preorderAll roots).flatMap fun n =>
    (n.children "ownedAttribute" ++ n.children "ownedEnd").filterMap libraryHref?

theorem mem_libraryHrefs {roots : List Node} {n c : Node} (hn : n ∈ preorderAll roots)
    (hc : c ∈ n.children "ownedAttribute" ++ n.children "ownedEnd") {href : String}
    (hhref : c.libraryHref? = some href) : href ∈ libraryHrefs roots :=
  List.mem_flatMap.mpr ⟨n, hn, List.mem_filterMap.mpr ⟨c, hc, hhref⟩⟩

/-- Whether identifiers are distinct and none of them is the reference of a library type. -/
structure Apart (roots : List Node) : Prop where
  distinct : DistinctIds roots
  foreign : ∀ id ∈ ids roots, id ∉ libraryHrefs roots

instance (roots : List Node) : Decidable (Apart roots) :=
  decidable_of_iff (DistinctIds roots ∧ ∀ id ∈ ids roots, id ∉ libraryHrefs roots)
    ⟨fun h => ⟨h.1, h.2⟩, fun h => ⟨h.distinct, h.foreign⟩⟩

end Node

namespace Source

/-- The sources that members in the trees of some nodes can refer to. -/
def Cited (roots : List Node) : Source → Prop
  | node n => (TypeKind.ofNode? n).isSome ∧ ∃ id, (IdIndex.ofRoots roots).get? id = some n
  | library href _ => href ∈ Node.libraryHrefs roots

/-- The sources that a run can come to. -/
def Reached (roots : List Node) (src : Source) : Prop :=
  src.Cited roots ∨ ∃ n ∈ roots, src = .node n

/-- The sources that the element at a handle can have when some top-level nodes are placed. -/
def Known (roots : List Node) (placed : List (Node × Handle)) (h : Handle) (src : Source) : Prop :=
  src.Cited roots ∨ ∃ n ∈ roots, src = .node n ∧ (n, h) ∈ placed

theorem Known.reached {roots : List Node} {placed : List (Node × Handle)} {h : Handle}
    {src : Source} (hk : src.Known roots placed h) : src.Reached roots := by
  rcases hk with hc | ⟨n, hn, he, -⟩
  · exact .inl hc
  · exact .inr ⟨n, hn, he⟩

theorem Reached.mem {roots : List Node} {n : Node} (h : (node n).Reached roots) :
    n ∈ Node.preorderAll roots := by
  rcases h with ⟨-, id, hid⟩ | ⟨m, hm, he⟩
  · exact IdIndex.mem_of_get?_ofRoots hid
  · cases he
    exact Node.mem_preorderAll_of_mem hm

/-- Whether the element at a handle stands for a node: it has been read from the node itself, or
from a source with the same key. -/
def StandsFor (srcs : List Source) (n : Node) (h : Handle) : Prop :=
  ∃ src, srcs[h]? = some src ∧ (src = node n ∨ ∃ id, n.id? = some id ∧ src.key? = some id)

theorem StandsFor.append {srcs more : List Source} {n : Node} {h : Handle}
    (hs : StandsFor srcs n h) : StandsFor (srcs ++ more) n h := by
  obtain ⟨src, hsrc, hn⟩ := hs
  exact ⟨src, getElem?_append_of_eq_some hsrc, hn⟩

end Source

namespace Node

variable {roots : List Node} {n c : Node} {src : Source}

theorem TypedBy.cited (hn : n ∈ preorderAll roots)
    (hc : c ∈ n.children "ownedAttribute" ++ n.children "ownedEnd")
    (h : c.TypedBy (.ofRoots roots) src) : src.Cited roots := by
  cases h with
  | node _ found isType => exact ⟨by simp [isType], _, found⟩
  | library key _ _ => exact mem_libraryHrefs hn hc key

theorem Specializes.cited (h : c.Specializes (.ofRoots roots) src) : src.Cited roots := by
  cases h with
  | node _ found isClass =>
    obtain ⟨kind, hk, -⟩ := isClass_eq_true.mp isClass
    exact ⟨by simp [hk], _, found⟩

theorem Cites.cited (hn : n ∈ preorderAll roots) (h : n.Cites (.ofRoots roots) src) :
    src.Cited roots := by
  rcases h with ⟨c, hc, hsrc⟩ | ⟨c, -, hsrc⟩
  · exact hsrc.cited hn (List.mem_append_left _ hc)
  · exact hsrc.cited

theorem Declares.kindText {e : Element} {kind : TypeKind} (h : n.Declares e)
    (hk : TypeKind.ofNode? n = some kind) : e.form.kindText = kind.text :=
  Option.some.inj (h.kind.symm.trans (TypeKind.kind?_of_ofNode? hk))

/-- Whether the identifier of a node leads to this node only. -/
def OwnsId (roots : List Node) (n : Node) : Prop :=
  ∀ id, n.id? = some id → (IdIndex.ofRoots roots).get? id = some n ∧
    (∀ m ∈ roots, m.id? = some id → m = n) ∧ id ∉ libraryHrefs roots

theorem OwnsId.eq_node {id : String} (ho : n.OwnsId roots) (hid : n.id? = some id)
    (hkey : src.key? = some id) (hsrc : src.Reached roots) : src = .node n := by
  obtain ⟨hfound, hroots, hhref⟩ := ho id hid
  rcases hsrc with hc | ⟨m, hm, rfl⟩
  · cases src with
    | node m =>
      obtain ⟨-, id', hm⟩ := hc
      have hsame : m.id? = some id' := (IdIndex.get?_mem hm).2
      obtain rfl : id' = id := Option.some.inj (hsame.symm.trans hkey)
      rw [Option.some.inj (hm.symm.trans hfound)]
    | library href kind =>
      cases hkey
      exact absurd hc hhref
  · rw [hroots m hm hkey]

/-- Nodes whose identifiers are apart own them. -/
theorem Apart.ownsId (hap : Apart roots) (hn : n ∈ preorderAll roots) : n.OwnsId roots := by
  intro id hid
  refine ⟨?_, fun m hm hmid => hap.distinct.eq_of_id (mem_preorderAll_of_mem hm) hn hmid hid,
    hap.foreign id (mem_ids hn hid)⟩
  rw [IdIndex.get?_ofRoots]
  cases hfound : (preorderAll roots).reverse.find? (·.id? == some id) with
  | none =>
    have hnone := List.find?_eq_none.mp hfound n (List.mem_reverse.mpr hn)
    simp [hid] at hnone
  | some m =>
    have hm := List.mem_reverse.mp (List.mem_of_find?_eq_some hfound)
    have hmid : m.id? = some id := by simpa using List.find?_some hfound
    rw [hap.distinct.eq_of_id hm hn hmid hid]

/-- A node of a class declares a classifier. -/
theorem Declares.classifier {e : Element} (h : n.Declares e) (hc : n.isClass = true) :
    ∃ isInterface attributes generalizations,
      e.form = .classifier isInterface attributes generalizations := by
  obtain ⟨kind, hk, hclass⟩ := isClass_eq_true.mp hc
  have htext := h.kindText hk
  cases hf : e.form with
  | classifier isInterface attributes generalizations => exact ⟨_, _, _, rfl⟩
  | _ => cases kind <;> simp_all [Form.kindText, TypeKind.text, TypeKind.isClass]

/-- The node of a type that is not a class has no members. -/
theorem Declares.statesMembers {m : Model} {a : Handle} {e : Element} (h : n.Declares e)
    (ht : (TypeKind.ofNode? n).isSome) (hc : n.isClass = false) : n.StatesMembers m a e := by
  obtain ⟨kind, hk⟩ := Option.isSome_iff_exists.mp ht
  have htext := h.kindText hk
  have hkind : kind.isClass = false := by
    by_contra hne
    rw [isClass_eq_true.mpr ⟨kind, hk, by simpa using hne⟩] at hc
    cases hc
  unfold StatesMembers
  cases hf : e.form with
  | classifier isInterface _ _ =>
    rw [hf] at htext
    cases isInterface <;> cases kind <;>
      simp_all [Form.kindText, TypeKind.text, TypeKind.isClass]
  | association _ _ _ =>
    rw [hf] at htext
    cases kind <;> simp [Form.kindText, TypeKind.text] at htext
  | _ => trivial

end Node

namespace Draft

/-- What distinct identifiers add: each element is found under its key, and it has its members
unless its handle is current or in the queue. -/
structure Settled (current : List Handle) (srcs : List Source) (d : Draft) : Prop where
  registered : ∀ h src key, srcs[h]? = some src → src.key? = some key →
    d.model.lookup key = some h
  filled : ∀ h n e, srcs[h]? = some (.node n) → d.model.elements[h]? = some e →
    h ∈ current ∨ h ∈ d.queue.map Prod.fst ∨ n.StatesMembers d.model h e

/-- The sources of the elements of a draft for which some top-level nodes are placed. -/
structure Traced (roots : List Node) (placed : List (Node × Handle)) (current : List Handle)
    (srcs : List Source) (d : Draft) : Prop where
  size : srcs.length = d.model.size
  heads : ∀ (h : Handle) (src : Source) e, srcs[h]? = some src → d.model.elements[h]? = some e →
    src.Heads e
  keyed : ∀ key h, d.model.lookup key = some h → ∃ src, srcs[h]? = some src ∧ src.key? = some key
  queued : ∀ h n, (h, n) ∈ d.queue → srcs[h]? = some (.node n) ∧ n.isClass = true
  known : ∀ (h : Handle) (src : Source), srcs[h]? = some src → src.Known roots placed h
  settled : Node.Apart roots → d.Settled current srcs

/-- Whether the element of a new source enters the queue or has all that its node states. -/
def Completes (src : Source) (d d' : Draft) : Prop :=
  ∀ n e, src = .node n → n.isClass = false → d'.model.elements[d.model.size]? = some e →
    n.StatesMembers d.model d.model.size e

namespace Settled

variable {current : List Handle} {srcs : List Source} {src : Source} {d d' : Draft}

theorem adds (hs : d.Settled current srcs) (size : srcs.length = d.model.size)
    (ha : d.Adds src d') (hl : d.Lacks src) (hc : d.Completes src d') :
    d'.Settled current (srcs ++ [src]) where
  registered h src' key hsrc hkey := by
    rw [ha.lookup]
    rcases getElem?_concat_eq_some.mp hsrc with hsrc | ⟨rfl, rfl⟩
    · have hold := hs.registered h src' key hsrc hkey
      -- A registered key is not that of a source which is lacking.
      have hne : src.key? ≠ some key := by
        intro hk
        rw [hl key hk] at hold
        cases hold
      rw [if_neg hne]
      exact hold
    · rw [if_pos hkey, size]
  filled h n e hsrc he := by
    have hkeeps := ha.keeps hl
    rw [ha.queue, List.map_append]
    rcases getElem?_concat_eq_some.mp hsrc with hsrc | ⟨rfl, rfl⟩
    · rw [ha.getElem? (size ▸ (List.getElem?_eq_some_iff.mp hsrc).1)] at he
      rcases hs.filled h n e hsrc he with hcur | hqueue | hmembers
      · exact .inl hcur
      · exact .inr (.inl (List.mem_append_left _ hqueue))
      · exact .inr (.inr (hmembers.keeps hkeeps))
    · rw [size] at he ⊢
      cases hn : n.isClass with
      | true => exact .inr (.inl (by simp [Source.openings, hn]))
      | false => exact .inr (.inr ((hc n e rfl hn he).keeps hkeeps))

end Settled

namespace Traced

variable {roots : List Node} {placed : List (Node × Handle)} {current : List Handle}
  {srcs : List Source} {d d' : Draft}

theorem lt_size {h : Handle} {src : Source} (ht : d.Traced roots placed current srcs)
    (hsrc : srcs[h]? = some src) : h < d.model.size :=
  ht.size ▸ (List.getElem?_eq_some_iff.mp hsrc).1

theorem bounded (ht : d.Traced roots placed current srcs) : d.model.Bounded := by
  intro key h hl
  obtain ⟨src, hsrc, -⟩ := ht.keyed key h hl
  exact ht.lt_size hsrc

theorem adds {src : Source} (ht : d.Traced roots placed current srcs) (ha : d.Adds src d')
    (hk : src.Known roots placed d.model.size)
    (hs : Node.Apart roots → d.Lacks src ∧ d.Completes src d') :
    d'.Traced roots placed current (srcs ++ [src]) where
  size := by rw [List.length_append, ht.size, ha.size]; rfl
  heads h src' e hsrc he := by
    rcases getElem?_concat_eq_some.mp hsrc with hsrc | ⟨rfl, rfl⟩
    · rw [ha.getElem? (ht.lt_size hsrc)] at he
      exact ht.heads h src' e hsrc he
    · rw [ht.size] at he
      exact ha.heads he
  keyed key h hl := by
    rw [ha.lookup] at hl
    split at hl
    next hkey =>
      cases hl
      exact ⟨src, getElem?_concat_eq_some.mpr (.inr ⟨ht.size.symm, rfl⟩), hkey⟩
    next =>
      obtain ⟨src', hsrc, hkey⟩ := ht.keyed key h hl
      exact ⟨src', getElem?_concat_eq_some.mpr (.inl hsrc), hkey⟩
  queued h n hq := by
    rw [ha.queue, List.mem_append] at hq
    rcases hq with hq | hq
    · obtain ⟨hsrc, hn⟩ := ht.queued h n hq
      exact ⟨getElem?_concat_eq_some.mpr (.inl hsrc), hn⟩
    · cases src with
      | node m =>
        cases hm : m.isClass <;> simp [Source.openings, hm] at hq
        obtain ⟨rfl, rfl⟩ := hq
        exact ⟨getElem?_concat_eq_some.mpr (.inr ⟨ht.size.symm, rfl⟩), hm⟩
      | library _ _ => simp [Source.openings] at hq
  known h src' hsrc := by
    rcases getElem?_concat_eq_some.mp hsrc with hsrc | ⟨rfl, rfl⟩
    · exact ht.known h src' hsrc
    · exact ht.size ▸ hk
  settled hap := (ht.settled hap).adds ht.size ha (hs hap).1 (hs hap).2

/-- Growing by sources that members refer to keeps the sources that are there. -/
theorem grows (ht : d.Traced roots placed current srcs) (hg : d.Grows (Source.Cited roots) d') :
    ∃ more, d'.Traced roots placed current (srcs ++ more) := by
  induction hg with
  | refl => exact ⟨[], by rwa [List.append_nil]⟩
  | tail _ hs ih =>
    obtain ⟨more, ht⟩ := ih
    obtain ⟨src, hc, hl, ha⟩ := hs
    refine ⟨more ++ [src], ?_⟩
    rw [← List.append_assoc]
    -- Only types are cited, and of these only classes have members; those wait in the queue.
    refine ht.adds ha (.inl hc) fun _ => ⟨hl, ?_⟩
    rintro n e rfl hn he
    exact Node.Declares.statesMembers (ha.heads he) hc.1 hn

end Traced
end Draft
end ClassGrammar
