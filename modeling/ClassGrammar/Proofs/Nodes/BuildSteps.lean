import ClassGrammar.Proofs.Documents.ElementTrees
import ClassGrammar.Proofs.General.FirstOccurrences
import Mathlib.Data.List.Induction

/-! Nodes that are built step by step. What such a node shows under a name or a tag is told by the
steps that concern it, and the order of its keys by the order in which they were first written. -/
namespace ClassGrammar

namespace Node

/-- A step of building a node: an attribute is set, a child is added, or the children of a tag are
replaced by a list. -/
inductive Step where
  | setAttr (name value : String)
  | pushChild (tag : String) (child : Node)
  | setChildren (tag : String) (children : List Node)

namespace Step

def apply (n : Node) : Step → Node
  | .setAttr name value => n.setAttr name value
  | .pushChild tag c => n.pushChild tag c
  | .setChildren tag cs => n.setChildren tag cs

/-- The key that a step writes to. -/
def key : Step → String
  | .setAttr name _ => attrKey name
  | .pushChild tag _ => tag
  | .setChildren tag _ => tag

/-- The tag of the children that a step brings. -/
def tag? : Step → Option String
  | .setAttr _ _ => none
  | .pushChild tag _ => some tag
  | .setChildren tag _ => some tag

def Sets (name : String) (s : Step) : Prop := ∃ value, s = .setAttr name value

def Replaces (tag : String) (s : Step) : Prop := ∃ cs, s = .setChildren tag cs

/-- The child that a step adds to those of a tag. -/
def added? (tag : String) : Step → Option Node
  | .pushChild t c => if t = tag then some c else none
  | _ => none

end Step

/-- The node that steps build of an empty one. -/
def built (steps : List Step) : Node := steps.foldl Step.apply .empty

/-- The children that steps add to those of a tag, in order. -/
def addedUnder (tag : String) (steps : List Step) : List Node := steps.filterMap (Step.added? tag)

/-- Whether a step is the last one of a kind, and which steps come after it. -/
def LastOf (P : Step → Prop) (steps : List Step) (s : Step) (after : List Step) : Prop :=
  P s ∧ (∃ before, steps = before ++ s :: after) ∧ ∀ t ∈ after, ¬ P t

/-- Whether a node shows what the steps say that it was built in. -/
structure Remembers (steps : List Step) (n : Node) : Prop where
  value : ∀ name v, n.attr? name = some v ↔
    ∃ after, LastOf (Step.Sets name) steps (.setAttr name v) after
  noValue : ∀ name, (∀ s ∈ steps, ¬ s.Sets name) → n.attr? name = none
  children : ∀ tag cs after, LastOf (Step.Replaces tag) steps (.setChildren tag cs) after →
    n.children tag = cs ++ addedUnder tag after
  onlyAdded : ∀ tag, (∀ s ∈ steps, ¬ s.Replaces tag) → n.children tag = addedUnder tag steps
  first : ∀ tag, n.child? tag = (n.children tag).head?
  hasChild : ∀ tag, n.hasChild tag = true ↔ n.children tag ≠ []
  /-- A tag holds a node when it got one child, and no list. -/
  single : ∀ tag c, n.entry? tag = some (.one tag c) ↔
    addedUnder tag steps = [c] ∧ ∀ s ∈ steps, ¬ s.Replaces tag
  /-- A tag that got anything else holds a list. -/
  several : ∀ tag cs, n.entry? tag = some (.many tag cs) ↔ n.children tag = cs ∧
    (∃ s ∈ steps, s.tag? = some tag) ∧
    ¬ ((addedUnder tag steps).length = 1 ∧ ∀ s ∈ steps, ¬ s.Replaces tag)
  keys : FirstOccurrences (steps.map Step.key) n.keys
  childNodes : n.childNodes = (n.keys.filter (IsTag ·)).flatMap n.children

section LastOf

variable {P : Step → Prop} {steps after : List Step} {s t : Step}

theorem lastOf_concat_of (ht : P t) (h : LastOf P (steps ++ [t]) s after) : s = t ∧ after = [] := by
  obtain ⟨-, ⟨before, hsteps⟩, hafter⟩ := h
  rcases List.eq_nil_or_concat after with rfl | ⟨rest, last, rfl⟩
  · exact ⟨(List.cons.inj (List.append_inj' hsteps rfl).2).1.symm, rfl⟩
  · rw [List.concat_eq_append, ← List.cons_append, ← List.append_assoc] at hsteps
    obtain rfl : t = last := (List.cons.inj (List.append_inj' hsteps rfl).2).1
    exact absurd ht (hafter t (by simp))

theorem lastOf_concat_of_not (ht : ¬ P t) (h : LastOf P (steps ++ [t]) s after) :
    ∃ rest, after = rest ++ [t] ∧ LastOf P steps s rest := by
  obtain ⟨hs, ⟨before, hsteps⟩, hafter⟩ := h
  rcases List.eq_nil_or_concat after with rfl | ⟨rest, last, rfl⟩
  · obtain rfl : t = s := (List.cons.inj (List.append_inj' hsteps rfl).2).1
    exact absurd hs ht
  · rw [List.concat_eq_append, ← List.cons_append, ← List.append_assoc] at hsteps
    obtain ⟨hfront, hlast⟩ := List.append_inj' hsteps rfl
    obtain rfl : t = last := (List.cons.inj hlast).1
    refine ⟨rest, List.concat_eq_append, hs, ⟨before, hfront⟩, fun u hu => hafter u ?_⟩
    rw [List.concat_eq_append]
    exact List.mem_append_left _ hu

theorem not_lastOf_nil : ¬ LastOf P [] s after := by
  rintro ⟨-, ⟨before, hsteps⟩, -⟩
  simp at hsteps

theorem exists_mem_of_concat (h : ∃ s ∈ steps ++ [t], P s) (ht : ¬ P t) : ∃ s ∈ steps, P s := by
  obtain ⟨s, hs, hp⟩ := h
  rcases List.mem_append.mp hs with hs | hs
  · exact ⟨s, hs, hp⟩
  · exact absurd (List.mem_singleton.mp hs ▸ hp) ht

theorem forall_mem_concat {steps : List Step} (h : ∀ s ∈ steps ++ [t], P s) :
    (∀ s ∈ steps, P s) ∧ P t := by
  rw [List.forall_mem_append, List.forall_mem_singleton] at h
  exact h

end LastOf

section Apply

variable {n : Node} {s : Step} {name tag : String}

theorem attr?_apply (hs : ¬ s.Sets name) (htag : ∀ tag ∈ s.tag?, IsTag tag) :
    (s.apply n).attr? name = n.attr? name := by
  cases s with
  | setAttr other value =>
    have hne : name ≠ other := by
      rintro rfl
      exact hs ⟨value, rfl⟩
    rw [Step.apply, attr?_setAttr, if_neg hne]
  | pushChild t c => exact attr?_pushChild (htag t rfl) c name
  | setChildren t cs =>
    have hne : attrKey name ≠ t := ((htag t rfl).ne_attrKey name).symm
    rw [Step.apply, setChildren, attr?, entry?_put, Entry.key, if_neg hne]
    rfl

/-- What stands under the key of an attribute is put there by setting the attribute. -/
theorem entry?_attrKey_apply (htag : ∀ tag ∈ s.tag?, IsTag tag) {e : Entry}
    (he : Node.entry? (s.apply n) (attrKey name) = some e) :
    (∃ v, e = .text (attrKey name) v) ∨ n.entry? (attrKey name) = some e := by
  cases s with
  | setAttr other value =>
    rw [Step.apply, setAttr, entry?_put, Entry.key] at he
    split at he
    next hsame => exact .inl ⟨value, by rw [hsame, Option.some.inj he]⟩
    next => exact .inr he
  | pushChild t c =>
    rw [Step.apply, pushChild, entry?_put, key_pushed,
      if_neg ((htag t rfl).ne_attrKey name).symm] at he
    exact .inr he
  | setChildren t cs =>
    have hne : attrKey name ≠ t := ((htag t rfl).ne_attrKey name).symm
    rw [Step.apply, setChildren, entry?_put, Entry.key, if_neg hne] at he
    exact .inr he

theorem children_apply (hn : ∀ name, n.children (attrKey name) = []) (hs : ¬ s.Replaces tag) :
    (s.apply n).children tag = n.children tag ++ (s.added? tag).toList := by
  cases s with
  | setAttr name value =>
    rw [Step.apply, setAttr, children_put, Entry.key]
    by_cases h : tag = attrKey name
    · simp [h, hn, Step.added?, Entry.nodes]
    · simp [h, Step.added?]
  | pushChild t c =>
    rw [Step.apply, children_pushChild]
    by_cases h : tag = t
    · simp [h, Step.added?]
    · simp [h, Ne.symm h, Step.added?]
  | setChildren t cs =>
    have hne : tag ≠ t := by
      rintro rfl
      exact hs ⟨cs, rfl⟩
    rw [Step.apply, setChildren, children_put, Entry.key, if_neg hne]
    simp [Step.added?]

theorem entry?_apply (htag : IsTag tag) (hs : ¬ s.Replaces tag) : Node.entry? (s.apply n) tag =
    (s.added? tag).elim (n.entry? tag) fun c => some (pushed tag c (n.entry? tag)) := by
  cases s with
  | setAttr name value => exact entry?_setAttr htag name value
  | pushChild t c =>
    rw [Step.apply, pushChild, entry?_put, key_pushed]
    by_cases h : tag = t
    · simp [h, Step.added?]
    · simp [h, Ne.symm h, Step.added?]
  | setChildren t cs =>
    have hne : tag ≠ t := by
      rintro rfl
      exact hs ⟨cs, rfl⟩
    rw [Step.apply, setChildren, entry?_put, Entry.key, if_neg hne]
    rfl

theorem keys_apply (n : Node) (s : Step) :
    (s.apply n).keys = if s.key ∈ n.keys then n.keys else n.keys ++ [s.key] := by
  cases s with
  | setAttr name value => exact keys_putEntry _ _
  | pushChild t c =>
    have hkeys := keys_putEntry (pushed t c (n.entry? t)) n.entries
    rwa [key_pushed] at hkeys
  | setChildren t cs => exact keys_putEntry _ _

end Apply

section Runs

variable {steps : List Step} {name tag : String}

theorem built_concat (steps : List Step) (s : Step) :
    built (steps ++ [s]) = s.apply (built steps) := by
  rw [built, List.foldl_append]
  rfl

theorem exists_lastOf {P : Step → Prop} (h : ∃ s ∈ steps, P s) :
    ∃ s after, LastOf P steps s after := by
  induction steps using List.reverseRecOn with
  | nil => simp at h
  | append_singleton steps t ih =>
    by_cases ht : P t
    · exact ⟨t, [], ht, ⟨steps, rfl⟩, nofun⟩
    · obtain ⟨s, after, hs, ⟨before, hcut⟩, hafter⟩ := ih (exists_mem_of_concat h ht)
      refine ⟨s, after ++ [t], hs, ⟨before, by rw [hcut, List.append_assoc]; rfl⟩, ?_⟩
      exact List.forall_mem_append.mpr ⟨hafter, List.forall_mem_singleton.mpr ht⟩

theorem addedUnder_concat (tag : String) (steps : List Step) (s : Step) :
    addedUnder tag (steps ++ [s]) = addedUnder tag steps ++ (s.added? tag).toList := by
  rw [addedUnder, List.filterMap_append]
  cases h : s.added? tag <;> simp [addedUnder, h]

/-- An attribute has the value that it was given last. -/
theorem attr?_of_lastOf (h : ∀ s ∈ steps, ∀ tag ∈ s.tag?, IsTag tag) {v : String}
    {after : List Step} (hlast : LastOf (Step.Sets name) steps (.setAttr name v) after) :
    (built steps).attr? name = some v := by
  induction steps using List.reverseRecOn generalizing after with
  | nil => exact absurd hlast not_lastOf_nil
  | append_singleton steps s ih =>
    obtain ⟨hsteps, hs⟩ := forall_mem_concat h
    rw [built_concat]
    by_cases hsets : s.Sets name
    · obtain ⟨rfl, -⟩ := lastOf_concat_of hsets hlast
      rw [Step.apply, attr?_setAttr, if_pos rfl]
    · obtain ⟨rest, -, hbefore⟩ := lastOf_concat_of_not hsets hlast
      rw [attr?_apply hsets hs]
      exact ih hsteps hbefore

theorem attr?_of_not_sets (h : ∀ s ∈ steps, ∀ tag ∈ s.tag?, IsTag tag)
    (hnone : ∀ s ∈ steps, ¬ s.Sets name) : (built steps).attr? name = none := by
  induction steps using List.reverseRecOn with
  | nil => rfl
  | append_singleton steps s ih =>
    obtain ⟨hsteps, hs⟩ := forall_mem_concat h
    obtain ⟨hbefore, hsets⟩ := forall_mem_concat hnone
    rw [built_concat, attr?_apply hsets hs]
    exact ih hsteps hbefore

theorem attr?_eq_some_iff (h : ∀ s ∈ steps, ∀ tag ∈ s.tag?, IsTag tag) (name v : String) :
    (built steps).attr? name = some v ↔
      ∃ after, LastOf (Step.Sets name) steps (.setAttr name v) after := by
  constructor
  · intro hv
    by_cases hsome : ∃ s ∈ steps, s.Sets name
    · obtain ⟨s, after, hlast⟩ := exists_lastOf hsome
      obtain ⟨v', rfl⟩ := hlast.1
      rw [attr?_of_lastOf h hlast] at hv
      obtain rfl := Option.some.inj hv
      exact ⟨after, hlast⟩
    · have hnone : ∀ s ∈ steps, ¬ s.Sets name := by simpa using hsome
      rw [attr?_of_not_sets h hnone] at hv
      cases hv
  · rintro ⟨after, hlast⟩
    exact attr?_of_lastOf h hlast

theorem text_of_entry?_built (h : ∀ s ∈ steps, ∀ tag ∈ s.tag?, IsTag tag) {e : Entry}
    (he : Node.entry? (built steps) (attrKey name) = some e) : ∃ v, e = .text (attrKey name) v := by
  induction steps using List.reverseRecOn with
  | nil => cases he
  | append_singleton steps s ih =>
    obtain ⟨hsteps, hs⟩ := forall_mem_concat h
    rw [built_concat] at he
    rcases entry?_attrKey_apply hs he with htext | hbefore
    · exact htext
    · exact ih hsteps hbefore

theorem children_attrKey_built (h : ∀ s ∈ steps, ∀ tag ∈ s.tag?, IsTag tag) (name : String) :
    (built steps).children (attrKey name) = [] := by
  unfold children
  split
  next e he =>
    obtain ⟨v, rfl⟩ := text_of_entry?_built h he
    rfl
  next => rfl

/-- A tag has the list that it was given last, and what was added to it since then. -/
theorem children_of_lastOf (h : ∀ s ∈ steps, ∀ tag ∈ s.tag?, IsTag tag) {cs : List Node}
    {after : List Step} (hlast : LastOf (Step.Replaces tag) steps (.setChildren tag cs) after) :
    (built steps).children tag = cs ++ addedUnder tag after := by
  induction steps using List.reverseRecOn generalizing after with
  | nil => exact absurd hlast not_lastOf_nil
  | append_singleton steps s ih =>
    obtain ⟨hsteps, hs⟩ := forall_mem_concat h
    rw [built_concat]
    by_cases hreplaces : s.Replaces tag
    · obtain ⟨rfl, rfl⟩ := lastOf_concat_of hreplaces hlast
      rw [Step.apply, setChildren, children_put, Entry.key, if_pos rfl]
      exact (List.append_nil cs).symm
    · obtain ⟨rest, rfl, hbefore⟩ := lastOf_concat_of_not hreplaces hlast
      rw [children_apply (children_attrKey_built hsteps) hreplaces, ih hsteps hbefore,
        addedUnder_concat, List.append_assoc]

theorem children_of_not_replaces (h : ∀ s ∈ steps, ∀ tag ∈ s.tag?, IsTag tag)
    (hnone : ∀ s ∈ steps, ¬ s.Replaces tag) :
    (built steps).children tag = addedUnder tag steps := by
  induction steps using List.reverseRecOn with
  | nil => rfl
  | append_singleton steps s ih =>
    obtain ⟨hsteps, hs⟩ := forall_mem_concat h
    obtain ⟨hbefore, hreplaces⟩ := forall_mem_concat hnone
    rw [built_concat, children_apply (children_attrKey_built hsteps) hreplaces, ih hsteps hbefore,
      addedUnder_concat]

theorem stored?_eq_one {cs : List Node} {c : Node} :
    stored? tag cs = some (.one tag c) ↔ cs = [c] := by
  rcases cs with _ | ⟨_, _ | _⟩ <;> simp [stored?]

theorem stored?_eq_many {cs ds : List Node} :
    stored? tag cs = some (.many tag ds) ↔ cs = ds ∧ 2 ≤ cs.length := by
  rcases cs with _ | ⟨_, _ | _⟩ <;> simp [stored?]

theorem entry?_of_not_replaces (htag : IsTag tag) (hnone : ∀ s ∈ steps, ¬ s.Replaces tag) :
    Node.entry? (built steps) tag = stored? tag (addedUnder tag steps) := by
  induction steps using List.reverseRecOn with
  | nil => rfl
  | append_singleton steps s ih =>
    obtain ⟨hbefore, hreplaces⟩ := forall_mem_concat hnone
    rw [built_concat, entry?_apply htag hreplaces, ih hbefore, addedUnder_concat]
    cases s.added? tag with
    | none => simp
    | some c => exact some_pushed_stored? tag c _

/-- Once a tag holds a list, it does so for good. -/
theorem entry?_of_replaces (htag : IsTag tag) (hsome : ∃ s ∈ steps, s.Replaces tag) :
    ∃ cs, Node.entry? (built steps) tag = some (.many tag cs) := by
  induction steps using List.reverseRecOn with
  | nil => simp at hsome
  | append_singleton steps s ih =>
    rw [built_concat]
    by_cases hreplaces : s.Replaces tag
    · obtain ⟨cs, rfl⟩ := hreplaces
      exact ⟨cs, by rw [Step.apply, setChildren, entry?_put, Entry.key, if_pos rfl]⟩
    · obtain ⟨cs, hcs⟩ := ih (exists_mem_of_concat hsome hreplaces)
      rw [entry?_apply htag hreplaces, hcs]
      cases s.added? tag with
      | none => exact ⟨cs, rfl⟩
      | some c => exact ⟨cs ++ [c], rfl⟩

theorem firstOccurrences_keys_built (steps : List Step) :
    FirstOccurrences (steps.map Step.key) (built steps).keys := by
  induction steps using List.reverseRecOn with
  | nil => exact .nil
  | append_singleton steps s ih =>
    rw [built_concat, keys_apply, List.map_append]
    exact ih.concat s.key

theorem attrKey_of_not_isTag (h : ¬ IsTag tag) : ∃ name, tag = attrKey name := by
  obtain ⟨rest, hrest⟩ := not_not.mp h
  refine ⟨String.ofList rest, String.toList_inj.mp ?_⟩
  simpa [attrKey] using hrest.symm

theorem tag?_of_added? {s : Step} {c : Node} (h : s.added? tag = some c) : s.tag? = some tag := by
  cases s with
  | pushChild t d =>
    by_cases ht : t = tag
    · rw [Step.tag?, ht]
    · simp [Step.added?, ht] at h
  | setAttr _ _ => cases h
  | setChildren _ _ => cases h

theorem exists_tag?_of_mem_addedUnder {c : Node} (h : c ∈ addedUnder tag steps) :
    ∃ s ∈ steps, s.tag? = some tag := by
  obtain ⟨s, hs, hc⟩ := List.mem_filterMap.mp h
  exact ⟨s, hs, tag?_of_added? hc⟩

/-- A step that brings children under a tag adds one or replaces them. -/
theorem added?_or_replaces {s : Step} (h : s.tag? = some tag) :
    (∃ c, s.added? tag = some c) ∨ s.Replaces tag := by
  cases s with
  | setAttr _ _ => cases h
  | pushChild t c => exact .inl ⟨c, if_pos (Option.some.inj h)⟩
  | setChildren t cs => exact .inr ⟨cs, by rw [Option.some.inj h]⟩

theorem single_iff (h : ∀ s ∈ steps, ∀ tag ∈ s.tag?, IsTag tag) (tag : String) (c : Node) :
    Node.entry? (built steps) tag = some (.one tag c) ↔
      addedUnder tag steps = [c] ∧ ∀ s ∈ steps, ¬ s.Replaces tag := by
  by_cases htag : IsTag tag
  · by_cases hsome : ∃ s ∈ steps, s.Replaces tag
    · obtain ⟨cs, hcs⟩ := entry?_of_replaces htag hsome
      rw [hcs]
      refine iff_of_false (by simp) fun hsingle => ?_
      obtain ⟨s, hs, hreplaces⟩ := hsome
      exact hsingle.2 s hs hreplaces
    · have hnone : ∀ s ∈ steps, ¬ s.Replaces tag := by simpa using hsome
      rw [entry?_of_not_replaces htag hnone, stored?_eq_one]
      exact (and_iff_left hnone).symm
  · -- What is no tag is the key of an attribute, and holds at most a text.
    refine iff_of_false (fun hone => ?_) fun hsingle => ?_
    · obtain ⟨name, rfl⟩ := attrKey_of_not_isTag htag
      obtain ⟨v, hv⟩ := text_of_entry?_built h hone
      cases hv
    · obtain ⟨s, hs, ht⟩ := exists_tag?_of_mem_addedUnder (hsingle.1 ▸ List.mem_singleton_self c)
      exact htag (h s hs tag ht)

theorem several_iff (h : ∀ s ∈ steps, ∀ tag ∈ s.tag?, IsTag tag) (tag : String) (cs : List Node) :
    Node.entry? (built steps) tag = some (.many tag cs) ↔ (built steps).children tag = cs ∧
      (∃ s ∈ steps, s.tag? = some tag) ∧
      ¬ ((addedUnder tag steps).length = 1 ∧ ∀ s ∈ steps, ¬ s.Replaces tag) := by
  by_cases htag : IsTag tag
  · by_cases hsome : ∃ s ∈ steps, s.Replaces tag
    · obtain ⟨ds, hds⟩ := entry?_of_replaces htag hsome
      obtain ⟨s, hs, es, rfl⟩ := hsome
      have hreceived : ∃ s ∈ steps, s.tag? = some tag := ⟨_, hs, rfl⟩
      have hreplaced : ¬ ∀ s ∈ steps, ¬ s.Replaces tag := fun hnone => hnone _ hs ⟨es, rfl⟩
      rw [children, hds]
      simp [hreceived, hreplaced, Entry.nodes]
    · have hnone : ∀ s ∈ steps, ¬ s.Replaces tag := by simpa using hsome
      have hreceived : (∃ s ∈ steps, s.tag? = some tag) ↔ addedUnder tag steps ≠ [] := by
        constructor
        · rintro ⟨s, hs, ht⟩
          obtain ⟨c, hc⟩ := (added?_or_replaces ht).resolve_right (hnone s hs)
          exact List.ne_nil_of_mem (List.mem_filterMap.mpr ⟨s, hs, hc⟩)
        · intro hne
          obtain ⟨c, hc⟩ := List.exists_mem_of_ne_nil _ hne
          exact exists_tag?_of_mem_addedUnder hc
      rw [entry?_of_not_replaces htag hnone, stored?_eq_many, children_of_not_replaces h hnone,
        hreceived]
      refine and_congr_right fun _ => ?_
      -- Without a list, the children are held in one exactly when there are two of them or more.
      rw [and_iff_left hnone]
      rcases addedUnder tag steps with _ | ⟨_, _ | _⟩ <;> simp
  · refine iff_of_false (fun hmany => ?_) fun hseveral => ?_
    · obtain ⟨name, rfl⟩ := attrKey_of_not_isTag htag
      obtain ⟨v, hv⟩ := text_of_entry?_built h hmany
      cases hv
    · obtain ⟨s, hs, ht⟩ := hseveral.2.1
      exact htag (h s hs tag ht)

theorem childNodes_built (h : ∀ s ∈ steps, ∀ tag ∈ s.tag?, IsTag tag) : (built steps).childNodes =
    ((built steps).keys.filter (IsTag ·)).flatMap (built steps).children := by
  rw [childNodes_eq_flatMap (firstOccurrences_keys_built steps).nodup]
  generalize (built steps).keys = keys
  induction keys with
  | nil => rfl
  | cons key rest ih =>
    rw [List.flatMap_cons, ih]
    by_cases hkey : IsTag key
    · rw [List.filter_cons_of_pos (by simpa using hkey), List.flatMap_cons]
    · obtain ⟨name, rfl⟩ := attrKey_of_not_isTag hkey
      rw [List.filter_cons_of_neg (by simpa using hkey), children_attrKey_built h, List.nil_append]

/-- A node remembers what it was built of. Each attribute has its last value, each tag the last list
that it was given with what was added since; a tag that got one child alone holds a node, else a
list; and keys stand in the order in which they were first written, whatever is written to them
later. -/
theorem built_remembers (h : ∀ s ∈ steps, ∀ tag ∈ s.tag?, IsTag tag) :
    (built steps).Remembers steps ∧ ∀ later : List Step,
      (∀ s ∈ later, s.key ∈ (built steps).keys) →
        (built (steps ++ later)).keys = (built steps).keys := by
  refine ⟨?_, fun later hlater => ?_⟩
  · exact {
      value := attr?_eq_some_iff h
      noValue := fun name => attr?_of_not_sets h
      children := fun tag cs after => children_of_lastOf h
      onlyAdded := fun tag => children_of_not_replaces h
      first := fun tag => rfl
      hasChild := fun tag => by simp [hasChild]
      single := single_iff h
      several := several_iff h
      keys := firstOccurrences_keys_built steps
      childNodes := childNodes_built h }
  · induction later using List.reverseRecOn with
    | nil => rw [List.append_nil]
    | append_singleton later s ih =>
      obtain ⟨hbefore, hs⟩ := forall_mem_concat hlater
      rw [← List.append_assoc, built_concat, keys_apply, ih hbefore, if_pos hs]

/-- A door that is given a new name, two hinges, and a list of locks that grows. -/
def doorSteps : List Step := [
  .pushChild "hinge" (built [.setAttr "name" "upper"]),
  .setAttr "name" "entrance",
  .pushChild "lock" (built [.setAttr "name" "rusty"]),
  .setAttr "hinge" "left",
  .pushChild "handle" (built []),
  .setChildren "lock" [built [.setAttr "name" "new"]],
  .setAttr "name" "door",
  .pushChild "hinge" (built [.setAttr "name" "lower"]),
  .pushChild "lock" (built [.setAttr "name" "chain"])]

theorem door_remembers : (∀ s ∈ doorSteps, ∀ tag ∈ s.tag?, IsTag tag) ∧
    (built doorSteps).Remembers doorSteps ∧ (built doorSteps).attr? "name" = some "door" ∧
    (built doorSteps).children "lock" =
      [built [.setAttr "name" "new"], built [.setAttr "name" "chain"]] ∧
    Node.entry? (built doorSteps) "handle" = some (.one "handle" (built [])) ∧
    (built doorSteps).keys = ["hinge", "@_name", "lock", "@_hinge", "handle"] ∧
    (built (doorSteps ++ [.setAttr "hinge" "right"])).keys = (built doorSteps).keys := by
  have htags : ∀ s ∈ doorSteps, ∀ tag ∈ s.tag?, IsTag tag := by decide
  obtain ⟨hdoor, hlater⟩ := built_remembers htags
  have hkeys : (built doorSteps).keys = ["hinge", "@_name", "lock", "@_hinge", "handle"] := by
    decide
  refine ⟨htags, hdoor, (hdoor.value "name" "door").mpr ⟨doorSteps.drop 7, ?_⟩,
    hdoor.children "lock" [built [.setAttr "name" "new"]] (doorSteps.drop 6) ?_,
    (hdoor.single "handle" (built [])).mpr ?_, hkeys, hlater _ (by simp [hkeys, Step.key, attrKey])⟩
  · exact ⟨⟨_, rfl⟩, ⟨doorSteps.take 6, rfl⟩, by simp [doorSteps, Step.Sets]⟩
  · exact ⟨⟨_, rfl⟩, ⟨doorSteps.take 5, rfl⟩, by simp [doorSteps, Step.Replaces]⟩
  · exact ⟨rfl, by simp [doorSteps, Step.Replaces]⟩

end Runs
end Node
end ClassGrammar
