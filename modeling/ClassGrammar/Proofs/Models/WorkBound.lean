import ClassGrammar.Proofs.Models.NeededNodes
import Mathlib.Data.Finset.Card
import Mathlib.Data.List.Perm.Subperm

/-! How much work it is to read a class model. A class that has left the queue never comes back to
it, and each element is paid for either by a top-level node or by a key that had no element. -/
namespace ClassGrammar

/-- The identifiers that an index resolves. -/
def IdIndex.identifiers (ix : IdIndex) : Finset String := (ix.nodes.filterMap Node.id?).toFinset

/-- The references of library types in the nodes that a run can read. -/
def IdIndex.hrefs (ix : IdIndex) (roots : List Node) : Finset String :=
  ((roots ++ ix.nodes).flatMap fun n => n.propertyNodes.filterMap Node.libraryHref?).toFinset

/-- The keys under which types can be found. -/
def IdIndex.typeKeys (ix : IdIndex) (roots : List Node) : Finset String :=
  ix.identifiers ∪ ix.hrefs roots

/-- The keys that no element is registered under. -/
def Model.vacant (keys : Finset String) (m : Model) : Finset String :=
  keys.filter fun key => m.lookup key = none

theorem Model.vacant_setMembers (keys : Finset String) (m : Model) (h : Handle)
    (attributes : List Property) (generalizations : List Generalization) :
    (m.setMembers h attributes generalizations).vacant keys = m.vacant keys := rfl

theorem Node.Needed.mem {ix : IdIndex} {roots : List Node} {n : Node}
    (h : n.Needed ix.get? roots) : n ∈ roots ++ ix.nodes := by
  cases h with
  | root mem => exact List.mem_append_left _ mem
  | type _ _ _ found => exact List.mem_append_right _ (IdIndex.get?_mem found).1
  | general _ _ _ _ found => exact List.mem_append_right _ (IdIndex.get?_mem found).1

namespace IdIndex

variable {ix : IdIndex} {roots : List Node} {n c : Node} {src : Source}

theorem mem_typeKeys_of_get? {id : String} (h : ix.get? id = some n) : id ∈ ix.typeKeys roots := by
  obtain ⟨hn, hid⟩ := get?_mem h
  exact Finset.mem_union_left _ (List.mem_toFinset.mpr (List.mem_filterMap.mpr ⟨n, hn, hid⟩))

/-- The types of the properties of a needed node have keys. -/
theorem exists_typeKey_of_typedBy (hn : n.Needed ix.get? roots) (hc : c ∈ n.propertyNodes)
    (h : c.TypedBy ix src) : ∃ key ∈ ix.typeKeys roots, src.key? = some key := by
  cases h with
  | @node id m _ _ found _ => exact ⟨id, mem_typeKeys_of_get? found, (get?_mem found).2⟩
  | @library _ href _ key _ _ =>
    refine ⟨href, Finset.mem_union_right _ (List.mem_toFinset.mpr ?_), rfl⟩
    exact List.mem_flatMap.mpr ⟨n, hn.mem, List.mem_filterMap.mpr ⟨c, hc, key⟩⟩

theorem exists_typeKey_of_cites (hn : n.Needed ix.get? roots) (hclass : n.isClass = true)
    (h : n.Cites ix src) : ∃ key ∈ ix.typeKeys roots, src.key? = some key := by
  rcases h with ⟨c, hc, htyped⟩ | ⟨c, -, hspec⟩
  · rw [← Node.propertyNodes_of_isClass hclass] at hc
    exact exists_typeKey_of_typedBy hn hc htyped
  · cases hspec with
    | @node id m _ found _ => exact ⟨id, mem_typeKeys_of_get? found, (get?_mem found).2⟩

end IdIndex

namespace Draft

/-- How the queue is worked off: the handles in the order in which they leave it, and the outcome.
A derivation is finite, so there is none for a queue that never gets empty. -/
inductive Drains (ix : IdIndex) : Draft → List Handle → Except Fault Draft → Prop
  | empty {d : Draft} (queue : d.queue = []) : Drains ix d [] (.ok d)
  | stop {d : Draft} {h : Handle} {n : Node} {rest : List (Handle × Node)} {f : Fault}
      (queue : d.queue = (h, n) :: rest)
      (fill : fillMembers ix { d with queue := rest } h n = .error f) : Drains ix d [h] (.error f)
  | next {d d' : Draft} {h : Handle} {n : Node} {rest : List (Handle × Node)}
      {taken : List Handle} {r : Except Fault Draft} (queue : d.queue = (h, n) :: rest)
      (fill : fillMembers ix { d with queue := rest } h n = .ok d')
      (later : Drains ix d' taken r) : Drains ix d (h :: taken) r

/-- How the top-level nodes are read from a position on, with the handles that leave the queue. -/
inductive Runs (ix : IdIndex) :
    Draft → Nat → List Node → List Handle → Except Fault Draft → Prop
  | done {d : Draft} {position : Nat} : Runs ix d position [] [] (.ok d)
  | reject {d : Draft} {position : Nat} {n : Node} {rest : List Node} {f : Fault}
      (root : rootFor ix d position n = .error f) : Runs ix d position (n :: rest) [] (.error f)
  | stop {d d₁ : Draft} {position : Nat} {n : Node} {rest : List Node} {h : Handle}
      {taken : List Handle} {f : Fault} (root : rootFor ix d position n = .ok (d₁, h))
      (drain : Drains ix { d₁ with model := d₁.model.addRoot h } taken (.error f)) :
      Runs ix d position (n :: rest) taken (.error f)
  | next {d d₁ d₂ : Draft} {position : Nat} {n : Node} {rest : List Node} {h : Handle}
      {taken later : List Handle} {r : Except Fault Draft}
      (root : rootFor ix d position n = .ok (d₁, h))
      (drain : Drains ix { d₁ with model := d₁.model.addRoot h } taken (.ok d₂))
      (run : Runs ix d₂ (position + 1) rest later r) :
      Runs ix d position (n :: rest) (taken ++ later) r

theorem exists_drains (ix : IdIndex) (d : Draft) : ∃ taken, Drains ix d taken (drain ix d) := by
  fun_induction drain ix d with
  | case1 d hq => exact ⟨[], .empty hq⟩
  | case2 d h n rest hq f hf => exact ⟨[h], .stop hq hf⟩
  | case3 d h n rest hq d₁ hf ih =>
    obtain ⟨taken, htaken⟩ := ih
    exact ⟨h :: taken, .next hq hf htaken⟩

theorem exists_runs (ix : IdIndex) (d : Draft) (position : Nat) (nodes : List Node) :
    ∃ taken, Runs ix d position nodes taken (addRoots ix d position nodes) := by
  induction nodes generalizing d position with
  | nil => exact ⟨[], .done⟩
  | cons n rest ih =>
    rw [addRoots]
    cases hroot : rootFor ix d position n with
    | error f => exact ⟨[], .reject hroot⟩
    | ok r =>
      obtain ⟨d₁, h⟩ := r
      obtain ⟨taken, htaken⟩ := exists_drains ix { d₁ with model := d₁.model.addRoot h }
      simp only [bind, Except.bind]
      cases hdrain : drain ix { d₁ with model := d₁.model.addRoot h } with
      | error f => exact ⟨taken, .stop hroot (hdrain ▸ htaken)⟩
      | ok d₂ =>
        obtain ⟨later, hlater⟩ := ih d₂ (position + 1)
        exact ⟨taken ++ later, .next hroot (hdrain ▸ htaken) hlater⟩

namespace Adds

variable {src : Source} {d d' : Draft} {keys : Finset String}

theorem vacant_subset (ha : d.Adds src d') : d'.model.vacant keys ⊆ d.model.vacant keys := by
  intro key hkey
  obtain ⟨hmem, hnone⟩ := Finset.mem_filter.mp hkey
  refine Finset.mem_filter.mpr ⟨hmem, ?_⟩
  rw [ha.lookup] at hnone
  split at hnone
  · cases hnone
  · exact hnone

/-- The element of a source that is lacking takes one of the vacant keys. -/
theorem card_vacant_lt (ha : d.Adds src d') (hl : d.Lacks src)
    (hkey : ∃ key ∈ keys, src.key? = some key) :
    (d'.model.vacant keys).card < (d.model.vacant keys).card := by
  obtain ⟨key, hmem, hkey⟩ := hkey
  refine Finset.card_lt_card (Finset.ssubset_iff_of_subset ha.vacant_subset |>.mpr ⟨key, ?_, ?_⟩)
  · exact Finset.mem_filter.mpr ⟨hmem, hl key hkey⟩
  · intro hvacant
    have hnone := (Finset.mem_filter.mp hvacant).2
    rw [ha.lookup, if_pos hkey] at hnone
    cases hnone

end Adds

/-- What a run has spent: handles that were taken do not wait again, and the elements are paid for
by the top-level nodes that are placed and the keys that are not vacant any more. -/
structure Ledger (ix : IdIndex) (roots : List Node) (taken : List Handle) (placed : Nat)
    (d : Draft) : Prop where
  waits : d.Waits ix roots
  once : (taken ++ d.queue.map Prod.fst).Nodup
  within : ∀ h ∈ taken ++ d.queue.map Prod.fst, h < d.model.size
  paid : d.model.size + (d.model.vacant (ix.typeKeys roots)).card ≤
    placed + (ix.typeKeys roots).card

namespace Ledger

variable {ix : IdIndex} {roots : List Node} {taken : List Handle} {placed placed' : Nat}
  {d d' : Draft}

theorem start (ix : IdIndex) (roots : List Node) : ({} : Draft).Ledger ix roots [] 0 where
  waits := .start ix roots
  once := List.nodup_nil
  within _ hh := by cases hh
  paid := Nat.add_le_add_left (Finset.card_le_card (Finset.filter_subset _ _)) 0

theorem size_le (hl : d.Ledger ix roots taken placed) :
    d.model.size ≤ placed + (ix.typeKeys roots).card :=
  Nat.le_trans (Nat.le_add_right _ _) hl.paid

theorem nodup_taken (hl : d.Ledger ix roots taken placed) : taken.Nodup :=
  hl.once.of_append_left

theorem length_taken_le (hl : d.Ledger ix roots taken placed) :
    taken.length ≤ placed + (ix.typeKeys roots).card := by
  have hsub : taken ⊆ List.range d.model.size := fun h hh =>
    List.mem_range.mpr (hl.within h (List.mem_append_left _ hh))
  have hle := (hl.nodup_taken.subperm hsub).length_le
  rw [List.length_range] at hle
  exact Nat.le_trans hle hl.size_le

theorem mono_placed (hl : d.Ledger ix roots taken placed) (h : placed ≤ placed') :
    d.Ledger ix roots taken placed' where
  waits := hl.waits
  once := hl.once
  within := hl.within
  paid := Nat.le_trans hl.paid (Nat.add_le_add_right h _)

/-- A new element enters the queue under a handle that is new as well. -/
theorem adds {src : Source} (hl : d.Ledger ix roots taken placed) (ha : d.Adds src d')
    (hn : ∀ n, src = .node n → n.Needed ix.get? roots)
    (hpaid : (d'.model.vacant (ix.typeKeys roots)).card + placed + 1 ≤
      (d.model.vacant (ix.typeKeys roots)).card + placed') :
    d'.Ledger ix roots taken placed' := by
  have hopen : ∀ h ∈ (src.openings d.model.size).map Prod.fst, h = d.model.size := by
    intro h hh
    cases src with
    | node n => cases hc : n.isClass <;> simp_all [Source.openings]
    | library _ _ => simp [Source.openings] at hh
  have hqueue : taken ++ d'.queue.map Prod.fst =
      (taken ++ d.queue.map Prod.fst) ++ (src.openings d.model.size).map Prod.fst := by
    rw [ha.queue, List.map_append, List.append_assoc]
  refine ⟨hl.waits.adds ha hn, ?_, fun h hh => ?_, ?_⟩
  · rw [hqueue]
    refine List.nodup_append.mpr ⟨hl.once, ?_, fun h hold h' hnew => ?_⟩
    · cases src with
      | node n => cases hc : n.isClass <;> simp [Source.openings, hc]
      | library _ _ => simp [Source.openings]
    · rw [hopen h' hnew]
      exact Nat.ne_of_lt (hl.within h hold)
  · rw [hqueue] at hh
    rw [ha.size]
    rcases List.mem_append.mp hh with hold | hnew
    · exact Nat.lt_succ_of_lt (hl.within h hold)
    · rw [hopen h hnew]
      exact Nat.lt_succ_self _
  · have hpaid' := hl.paid
    rw [ha.size]
    omega

/-- Elements of sources with keys are paid for by vacant keys. -/
theorem grows {P : Source → Prop} (hl : d.Ledger ix roots taken placed) (hg : d.Grows P d')
    (hn : ∀ n : Node, P (.node n) → n.Needed ix.get? roots)
    (hkey : ∀ src, P src → ∃ key ∈ ix.typeKeys roots, src.key? = some key) :
    d'.Ledger ix roots taken placed := by
  induction hg with
  | refl => exact hl
  | tail _ hs ih =>
    obtain ⟨src, hsrc, hlacks, ha⟩ := hs
    have hlt := ha.card_vacant_lt hlacks (hkey src hsrc)
    exact ih.adds ha (fun n h => hn n (h ▸ hsrc)) (by omega)

/-- The class at the front of the queue is taken from it. -/
theorem pop {h : Handle} {n : Node} {rest : List (Handle × Node)}
    (hl : d.Ledger ix roots taken placed) (hq : d.queue = (h, n) :: rest) :
    { d with queue := rest }.Ledger ix roots (taken ++ [h]) placed := by
  have hqueue : taken ++ [h] ++ rest.map Prod.fst = taken ++ d.queue.map Prod.fst := by
    rw [hq, List.map_cons, List.append_assoc, List.singleton_append]
  refine ⟨⟨hl.waits.bounded, fun p hp => hl.waits.queue p (hq ▸ List.mem_cons_of_mem _ hp)⟩,
    ?_, ?_, hl.paid⟩
  · rw [hqueue]
    exact hl.once
  · rw [hqueue]
    exact hl.within

theorem fill {h : Handle} {n : Node} {rest : List (Handle × Node)}
    (hl : d.Ledger ix roots taken placed) (hq : d.queue = (h, n) :: rest)
    (hf : fillMembers ix { d with queue := rest } h n = .ok d') :
    d'.Ledger ix roots (taken ++ [h]) placed := by
  obtain ⟨hn, hclass⟩ := hl.waits.queue (h, n) (by rw [hq]; exact List.mem_cons_self)
  have hwaits := hl.waits.fill hq hf
  obtain ⟨d₁, attributes, generalizations, hg, -, -, rfl⟩ :=
    fillMembers_spec (hl.pop hq).waits.bounded hf
  have hl₁ := (hl.pop hq).grows hg (fun m hm => hn.of_cites hclass hm)
    fun src hsrc => IdIndex.exists_typeKey_of_cites hn hclass hsrc
  refine ⟨hwaits, hl₁.once, ?_, ?_⟩
  · simpa only [Model.size_setMembers] using hl₁.within
  · simpa only [Model.size_setMembers, Model.vacant_setMembers] using hl₁.paid

/-- A top-level node pays for its own element. -/
theorem places {n : Node} {h : Handle} (hl : d.Ledger ix roots taken placed) (hn : n ∈ roots)
    (hp : Places ix n d d' h) : d'.Ledger ix roots taken (placed + 1) := by
  have hroot (m : Node) (hm : Source.node n = .node m) : m.Needed ix.get? roots :=
    Source.node.inj hm ▸ .root hn
  have hpaid {d d' : Draft} (ha : d.Adds (.node n) d') :
      (d'.model.vacant (ix.typeKeys roots)).card + placed + 1 ≤
        (d.model.vacant (ix.typeKeys roots)).card + (placed + 1) :=
    Nat.add_le_add_right (Finset.card_le_card ha.vacant_subset) (placed + 1)
  cases hp with
  | known _ _ => exact hl.mono_placed (Nat.le_succ placed)
  | type _ _ adds => exact hl.adds adds hroot (hpaid adds)
  | association kind _ ends adds _ _ =>
    have ha : n.isAssociation = true := by simpa [Node.isAssociation] using kind
    rw [← Node.propertyNodes_of_isAssociation ha] at ends
    refine (hl.grows ends ?_ ?_).adds adds hroot (hpaid adds)
    · rintro m ⟨c, hc, htyped⟩
      exact (Node.Needed.root hn).of_typedBy hc htyped
    · rintro src ⟨c, hc, htyped⟩
      exact IdIndex.exists_typeKey_of_typedBy (.root hn) hc htyped

theorem addRoot (hl : d.Ledger ix roots taken placed) (h : Handle) :
    { d with model := d.model.addRoot h }.Ledger ix roots taken placed where
  waits := ⟨hl.waits.bounded, hl.waits.queue⟩
  once := hl.once
  within := hl.within
  paid := hl.paid

/-- A run of the queue ends with a ledger of all that has been taken, also when it fails. -/
theorem drains {later : List Handle} {r : Except Fault Draft}
    (hl : d.Ledger ix roots taken placed) (hr : Drains ix d later r) :
    (∃ d₁ : Draft, d₁.Ledger ix roots (taken ++ later) placed) ∧
      ∀ d', r = .ok d' → d'.Ledger ix roots (taken ++ later) placed := by
  induction hr generalizing taken with
  | empty hq =>
    rw [List.append_nil]
    exact ⟨⟨_, hl⟩, fun d' hd => Except.ok.inj hd ▸ hl⟩
  | stop hq hf => exact ⟨⟨_, hl.pop hq⟩, fun d' hd => by cases hd⟩
  | @next _ _ h _ _ later _ hq hf _ ih =>
    have hlater := ih (hl.fill hq hf)
    rwa [List.append_assoc, List.singleton_append] at hlater

theorem runs {position : Nat} {rest : List Node} {later : List Handle} {r : Except Fault Draft}
    (hl : d.Ledger ix roots taken placed) (hrest : rest ⊆ roots)
    (hr : Runs ix d position rest later r) :
    (∃ d₁ : Draft, d₁.Ledger ix roots (taken ++ later) (placed + rest.length)) ∧
      ∀ d', r = .ok d' → d'.Ledger ix roots (taken ++ later) (placed + rest.length) := by
  induction hr generalizing taken placed with
  | done =>
    rw [List.append_nil]
    exact ⟨⟨_, hl⟩, fun d' hd => Except.ok.inj hd ▸ hl⟩
  | reject _ =>
    rw [List.append_nil]
    exact ⟨⟨_, hl.mono_placed (Nat.le_add_right _ _)⟩, fun d' hd => by cases hd⟩
  | stop root drain =>
    have hl₁ := hl.places (hrest List.mem_cons_self) (rootFor_places hl.waits.bounded root)
    obtain ⟨⟨d₁, hd₁⟩, -⟩ := (hl₁.addRoot _).drains drain
    refine ⟨⟨d₁, hd₁.mono_placed ?_⟩, fun d' hd => by cases hd⟩
    simp
  | next root drain _ ih =>
    have hl₁ := hl.places (hrest List.mem_cons_self) (rootFor_places hl.waits.bounded root)
    have hl₂ := ((hl₁.addRoot _).drains drain).2 _ rfl
    have hlater := ih hl₂ (List.subset_of_cons_subset hrest)
    rwa [List.append_assoc, Nat.add_assoc, Nat.add_comm 1] at hlater

end Ledger
end Draft

theorem IdIndex.card_typeKeys_le (ix : IdIndex) (roots : List Node) :
    (ix.typeKeys roots).card ≤ ix.identifiers.card + (ix.hrefs roots).card :=
  Finset.card_union_le _ _

/-- Every run ends, on cyclic input and with repeated identifiers as well. No class leaves the queue
twice, and there are at most as many elements as top-level nodes, indexed identifiers and library
references. -/
theorem Model.ofNodes_frugal (ix : IdIndex) (roots : List Node) :
    ∃ taken r, Draft.Runs ix {} 0 roots taken r ∧ Model.ofNodes ix roots = r.map Draft.model ∧
      taken.Nodup ∧
      taken.length ≤ roots.length + ix.identifiers.card + (ix.hrefs roots).card ∧
      ∀ m, Model.ofNodes ix roots = .ok m →
        m.size ≤ roots.length + ix.identifiers.card + (ix.hrefs roots).card := by
  obtain ⟨taken, hruns⟩ := Draft.exists_runs ix {} 0 roots
  obtain ⟨⟨d, hd⟩, hok⟩ := (Draft.Ledger.start ix roots).runs (List.Subset.refl roots) hruns
  rw [List.nil_append, Nat.zero_add] at hd hok
  have hkeys := ix.card_typeKeys_le roots
  refine ⟨taken, _, hruns, rfl, hd.nodup_taken, ?_, fun m hm => ?_⟩
  · have hle := hd.length_taken_le
    omega
  · obtain ⟨d', hrun, rfl⟩ := Model.ofNodes_eq_ok.mp hm
    have hle := (hok d' hrun).size_le
    omega

end ClassGrammar
