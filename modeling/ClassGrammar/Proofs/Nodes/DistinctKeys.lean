import ClassGrammar.Document
import ClassGrammar.Node.Preorder
import Mathlib.Data.List.Nodup

/-! Storing an entry changes what stands under its key and nothing else. So in a node that is built
step by step, and in one that is read from a document, each key stands once. -/
namespace ClassGrammar

namespace Node

theorem find?_putEntry (e : Entry) (es : List Entry) (key : String) :
    (putEntry e es).find? (·.key == key) =
      if key = e.key then some e else es.find? (·.key == key) := by
  induction es with
  | nil => by_cases h : key = e.key <;> simp [putEntry, h, Ne.symm]
  | cons f rest ih =>
    by_cases hf : f.key = e.key
    · by_cases h : key = e.key <;> simp [putEntry, hf, h, Ne.symm]
    · by_cases h : key = e.key
      · subst h
        simpa [putEntry, hf] using ih
      · by_cases hk : f.key = key <;> simp [putEntry, hf, hk, h, ih]

theorem entry?_put (n : Node) (e : Entry) (key : String) :
    Node.entry? (n.put e) key = if key = e.key then some e else n.entry? key :=
  find?_putEntry e n.entries key

theorem children_put (n : Node) (e : Entry) (key : String) :
    (n.put e).children key = if key = e.key then e.nodes else n.children key := by
  unfold children
  rw [entry?_put]
  by_cases h : key = e.key <;> simp [h]

theorem key_pushed (tag : String) (child : Node) (e? : Option Entry) :
    (pushed tag child e?).key = tag := by
  unfold pushed
  split <;> rfl

theorem nodes_pushed (n : Node) (tag : String) (child : Node) :
    (pushed tag child (n.entry? tag)).nodes = n.children tag ++ [child] := by
  unfold children
  rcases n.entry? tag with _ | e
  · rfl
  · cases e <;> rfl

theorem children_pushChild (n : Node) (tag : String) (child : Node) (key : String) :
    (n.pushChild tag child).children key =
      if key = tag then n.children tag ++ [child] else n.children key := by
  rw [pushChild, children_put, key_pushed, nodes_pushed]

theorem keys_putEntry (e : Entry) (es : List Entry) : (putEntry e es).map Entry.key =
    if e.key ∈ es.map Entry.key then es.map Entry.key else es.map Entry.key ++ [e.key] := by
  induction es with
  | nil => rfl
  | cons f rest ih =>
    by_cases hf : f.key = e.key
    · simp [putEntry, hf]
    · have hmem : e.key ∈ f.key :: rest.map Entry.key ↔ e.key ∈ rest.map Entry.key := by
        simp [Ne.symm hf]
      simp only [putEntry, beq_eq_false_iff_ne.mpr hf, Bool.false_eq_true, if_false, List.map_cons,
        ih, hmem]
      split <;> rfl

theorem mem_putEntry {e f : Entry} {es : List Entry} (h : f ∈ putEntry e es) : f = e ∨ f ∈ es := by
  induction es with
  | nil => exact .inl (List.mem_singleton.mp h)
  | cons g rest ih =>
    unfold putEntry at h
    split at h
    · rcases List.mem_cons.mp h with rfl | h
      · exact .inl rfl
      · exact .inr (List.mem_cons_of_mem g h)
    · rcases List.mem_cons.mp h with rfl | h
      · exact .inr List.mem_cons_self
      · exact (ih h).imp_right (List.mem_cons_of_mem g)

theorem mem_childNodes_put {n c : Node} {e : Entry} (h : c ∈ (n.put e).childNodes) :
    c ∈ e.nodes ∨ c ∈ n.childNodes := by
  obtain ⟨f, hf, hcf⟩ := List.mem_flatMap.mp h
  rcases mem_putEntry hf with rfl | hf
  · exact .inl hcf
  · exact .inr (List.mem_flatMap.mpr ⟨f, hf, hcf⟩)

/-- An entry that is put into a node leaves what holds of all nodes below it to the new entry. -/
theorem forall_preorder_put {P : Node → Prop} {n : Node} {e : Entry} (h : ∀ m ∈ n.preorder, P m)
    (hnew : P (n.put e)) (he : ∀ c ∈ e.nodes, ∀ m ∈ c.preorder, P m) :
    ∀ m ∈ (n.put e).preorder, P m := by
  refine forall_preorder_iff.mpr ⟨hnew, fun c hc => ?_⟩
  rcases mem_childNodes_put hc with hin | hold
  · exact he c hin
  · exact (forall_preorder_iff.mp h).2 c hold

theorem forall_preorder_of_mem_children {P : Node → Prop} {n c : Node} {tag : String}
    (h : ∀ m ∈ n.preorder, P m) (hc : c ∈ n.children tag) : ∀ m ∈ c.preorder, P m :=
  (forall_preorder_iff.mp h).2 c (mem_childNodes_of_mem_children hc)

theorem forall_preorder_pushed {P : Node → Prop} {n child : Node} {tag : String}
    (h : ∀ m ∈ n.preorder, P m) (hchild : ∀ m ∈ child.preorder, P m) :
    ∀ c ∈ (pushed tag child (n.entry? tag)).nodes, ∀ m ∈ c.preorder, P m := by
  intro c hc
  rw [nodes_pushed, List.mem_append, List.mem_singleton] at hc
  rcases hc with hin | rfl
  · exact forall_preorder_of_mem_children h hin
  · exact hchild

theorem entry?_of_mem {n : Node} (hn : n.keys.Nodup) {e : Entry} (he : e ∈ n.entries) :
    n.entry? e.key = some e := by
  unfold entry?
  cases hf : n.entries.find? (·.key == e.key) with
  | none => simpa using List.find?_eq_none.mp hf e he
  | some f =>
    have hkey : f.key = e.key := by simpa using List.find?_some hf
    rw [List.inj_on_of_nodup_map hn (List.mem_of_find?_eq_some hf) he hkey]

/-- When keys are distinct, the children of a node are those of its keys. -/
theorem childNodes_eq_flatMap {n : Node} (hn : n.keys.Nodup) :
    n.childNodes = n.keys.flatMap n.children := by
  rw [childNodes, keys, List.flatMap_map]
  refine List.flatMap_congr fun e he => ?_
  rw [children, entry?_of_mem hn he]

theorem children_eq_nil {n : Node} {tag : String} (h : tag ∉ n.keys) : n.children tag = [] := by
  have hnone : n.entry? tag = none := by
    refine List.find?_eq_none.mpr fun e he hkey => h ?_
    exact List.mem_map.mpr ⟨e, he, by simpa using hkey⟩
  rw [children, hnone]

/-- Whether each key of a node stands once, and so it is in all nodes below it. -/
def DistinctKeys (n : Node) : Prop := ∀ m ∈ n.preorder, m.keys.Nodup

instance (n : Node) : Decidable n.DistinctKeys :=
  inferInstanceAs (Decidable (∀ m ∈ n.preorder, m.keys.Nodup))

theorem distinctKeys_iff {n : Node} :
    n.DistinctKeys ↔ n.keys.Nodup ∧ ∀ c ∈ n.childNodes, c.DistinctKeys :=
  forall_preorder_iff

namespace DistinctKeys

variable {n : Node}

theorem empty : Node.empty.DistinctKeys := by decide

theorem put (h : n.DistinctKeys) {e : Entry} (he : ∀ c ∈ e.nodes, c.DistinctKeys) :
    (n.put e).DistinctKeys := by
  refine forall_preorder_put h ?_ he
  show ((putEntry e n.entries).map Entry.key).Nodup
  have hkeys := (distinctKeys_iff.mp h).1
  rw [keys_putEntry]
  split
  · exact hkeys
  · rw [← List.concat_eq_append]
    exact hkeys.concat (by assumption)

theorem setAttr (h : n.DistinctKeys) (name value : String) : (n.setAttr name value).DistinctKeys :=
  h.put (by simp [Entry.nodes])

theorem setChildren (h : n.DistinctKeys) (tag : String) {children : List Node}
    (hc : ∀ c ∈ children, c.DistinctKeys) : (n.setChildren tag children).DistinctKeys :=
  h.put hc

theorem of_mem_children (h : n.DistinctKeys) {tag : String} {c : Node}
    (hc : c ∈ n.children tag) : c.DistinctKeys :=
  forall_preorder_of_mem_children h hc

theorem pushChild (h : n.DistinctKeys) (tag : String) {child : Node} (hc : child.DistinctKeys) :
    (n.pushChild tag child).DistinctKeys :=
  h.put (forall_preorder_pushed h hc)

end DistinctKeys

end Node

namespace Markup

/-- The tag of the element that an event begins. -/
def Event.tag? : Event → Option String
  | .opening tag _ | .childless tag _ => some tag
  | _ => none

end Markup

namespace Document

open Markup

/-- Whether something holds of the elements that are open, their tags included, and of the node that
holds those that are closed. -/
def Open.All (P : Node → Prop) (T : String → Prop) (s : Open) : Prop :=
  P s.root ∧ ∀ t ∈ s.tags, T t.1 ∧ P t.2

/-- Whether keys are distinct in the elements that are open and in those that are closed. -/
def Open.DistinctKeys (s : Open) : Prop := s.root.DistinctKeys ∧ ∀ t ∈ s.tags, t.2.DistinctKeys

namespace Open

variable {s s' : Open}

/-- The attributes of a node are built up from the first to the last. -/
theorem nodeOf_induction {motive : Node → Prop} (attributes : List (String × String))
    (empty : motive .empty) (setAttr : ∀ n name value, motive n → motive (n.setAttr name value)) :
    motive (nodeOf attributes) := by
  have hfold (n : Node) (hn : motive n) :
      motive (attributes.foldl (fun n a => n.setAttr a.1 a.2) n) := by
    induction attributes generalizing n with
    | nil => exact hn
    | cons a rest ih => exact ih _ (setAttr n a.1 a.2 hn)
  exact hfold .empty empty

namespace All

variable {P : Node → Prop} {T : String → Prop}

theorem attach (hpush : ∀ n tag c, P n → T tag → P c → P (n.pushChild tag c)) (h : s.All P T)
    {tag : String} (htag : T tag) {n : Node} (hn : P n) : (s.attach tag n).All P T := by
  obtain ⟨hroot, htags⟩ := h
  unfold Open.attach
  split
  · exact ⟨hpush _ _ _ hroot htag hn, htags⟩
  next outer parent rest hs =>
    rw [hs, List.forall_mem_cons] at htags
    obtain ⟨⟨houter, hparent⟩, hrest⟩ := htags
    exact ⟨hroot, List.forall_mem_cons.mpr ⟨⟨houter, hpush _ _ _ hparent htag hn⟩, hrest⟩⟩

/-- What holds of nodes with attributes only, and is kept when a child is added, is kept by each
event. -/
theorem step (hnode : ∀ attributes, P (nodeOf attributes))
    (hpush : ∀ n tag c, P n → T tag → P c → P (n.pushChild tag c)) (h : s.All P T) {e : Event}
    (htag : ∀ tag ∈ e.tag?, T tag) (he : s.step e = .ok s') : s'.All P T := by
  cases e with
  | opening tag attributes =>
    cases he
    exact ⟨h.1, List.forall_mem_cons.mpr ⟨⟨htag tag rfl, hnode attributes⟩, h.2⟩⟩
  | childless tag attributes =>
    cases he
    exact h.attach hpush (htag tag rfl) (hnode attributes)
  | closing =>
    simp only [Open.step] at he
    split at he
    · cases he
      exact h
    next tag n rest hs =>
      cases he
      have htags := h.2
      rw [hs, List.forall_mem_cons] at htags
      have hrest : Open.All P T { s with tags := rest } := ⟨h.1, htags.2⟩
      exact hrest.attach hpush htags.1.1 htags.1.2
  | ignored =>
    cases he
    exact h
  | broken f => cases he

theorem run (hnode : ∀ attributes, P (nodeOf attributes))
    (hpush : ∀ n tag c, P n → T tag → P c → P (n.pushChild tag c)) (h : s.All P T)
    {events : List Event} (htags : ∀ e ∈ events, ∀ tag ∈ e.tag?, T tag)
    (hr : s.run events = .ok s') : s'.All P T := by
  induction events generalizing s with
  | nil =>
    cases hr
    exact h
  | cons e rest ih =>
    rw [List.forall_mem_cons] at htags
    unfold Open.run at hr
    split at hr
    next s₁ hs => exact ih (h.step hnode hpush htags.1 hs) htags.2 hr
    next => cases hr

end All

theorem distinctKeys_nodeOf (attributes : List (String × String)) :
    (nodeOf attributes).DistinctKeys :=
  nodeOf_induction attributes .empty fun _ name value hn => hn.setAttr name value

theorem DistinctKeys.run (h : s.DistinctKeys) {events : List Event} (hr : s.run events = .ok s') :
    s'.DistinctKeys := by
  have hall : s.All Node.DistinctKeys fun _ => True := ⟨h.1, fun t ht => ⟨trivial, h.2 t ht⟩⟩
  obtain ⟨hroot, htags⟩ := hall.run distinctKeys_nodeOf (fun n tag c hn _ hc => hn.pushChild tag hc)
    (fun _ _ _ _ => trivial) hr
  exact ⟨hroot, fun t ht => (htags t ht).2⟩

end Open

/-- What the events of a document leave: all elements are closed. -/
theorem run_of_ofEvents {events : List Event} {d : Document} (h : ofEvents events = .ok d) :
    Open.run {} events = .ok { root := d.root } := by
  unfold ofEvents at h
  split at h
  · cases h
  next s hs =>
    split at h
    next htags =>
      cases h
      rw [hs, ← htags]
    next => cases h

theorem distinctKeys_of_ofEvents {events : List Event} {d : Document}
    (h : ofEvents events = .ok d) : d.root.DistinctKeys :=
  (Open.DistinctKeys.run ⟨.empty, by simp⟩ (run_of_ofEvents h)).1

theorem distinctKeys_of_model {d : Document} {m : Node} (hd : d.root.DistinctKeys)
    (h : d.model = .ok m) : m.DistinctKeys := by
  have hchild {n c : Node} {tag : String} (hn : n.DistinctKeys) (hc : n.child? tag = some c) :
      c.DistinctKeys := hn.of_mem_children (List.mem_of_mem_head? hc)
  unfold model at h
  split at h
  next m' hm =>
    cases h
    exact hchild hd hm
  next =>
    split at h
    next m' hm =>
      cases h
      obtain ⟨wrapper, hw, hm⟩ := Option.bind_eq_some_iff.mp hm
      exact hchild (hchild hd hw) hm
    next => cases h

theorem distinctKeys_unpack {lists : List (List Node)}
    (h : ∀ ns ∈ lists, ∀ n ∈ ns, n.DistinctKeys) : ∀ n ∈ unpack lists, n.DistinctKeys := by
  fun_induction unpack lists with
  | case1 => simp
  | case2 rest ih =>
    rw [List.forall_mem_cons] at h
    exact ih h.2
  | case3 n ns rest hp ih =>
    rw [List.forall_mem_cons, List.forall_mem_cons] at h
    refine ih ?_
    rw [List.forall_mem_cons, List.forall_mem_cons]
    exact ⟨fun c hc => h.1.1.of_mem_children hc, h.1.2, h.2⟩
  | case4 n ns rest hp ih =>
    rw [List.forall_mem_cons, List.forall_mem_cons] at h
    rw [List.forall_mem_cons]
    refine ⟨h.1.1, ih ?_⟩
    rw [List.forall_mem_cons]
    exact ⟨h.1.2, h.2⟩

/-- The members of a document that is read have distinct keys, down to the last node. -/
theorem distinctKeys_of_packagedElements {bytes : Bytes} {d : Document} {roots : List Node}
    (hread : read bytes = .ok d) (h : d.packagedElements = .ok roots) :
    ∀ n ∈ roots, n.DistinctKeys := by
  unfold packagedElements at h
  cases hm : d.model with
  | error f => simp [hm, Except.map] at h
  | ok m =>
    obtain rfl : unpack [m.members] = roots := by simpa [hm, Except.map] using h
    have hmodel := distinctKeys_of_model (distinctKeys_of_ofEvents hread) hm
    refine distinctKeys_unpack ?_
    rw [List.forall_mem_singleton]
    exact fun n hn => hmodel.of_mem_children hn

end Document
end ClassGrammar
