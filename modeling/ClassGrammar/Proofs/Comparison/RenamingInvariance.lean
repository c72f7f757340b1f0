import ClassGrammar.Proofs.Comparison.FurtherNodes
import ClassGrammar.Proofs.Comparison.ReidentifiedGrammars
import ClassGrammar.Proofs.Comparison.Renaming

/-! Identifiers are only names for nodes. Under other identifiers a document has the same grammar,
also when identifiers are repeated. -/
namespace ClassGrammar

namespace Node

variable {s : String → String}

theorem sameAttributes_rename (htoken : ∀ w, Text.IsToken w → Text.IsToken (s w)) (n : Node) :
    n.SameAttributes s (n.rename s) where
  id := n.id?_rename s
  type := n.attr?_rename s "type"
  general := n.attr?_rename s "general"
  tokens := by
    unfold navigableTokens
    rw [attr?_rename]
    cases n.attr? "navigableOwnedEnd" with
    | none => rfl
    | some value => exact Text.words_mapWords htoken value
  kind := n.kind?_rename s
  name := n.name?_rename s
  aggregation := n.attr?_rename_of_ne s (by decide) (by decide) (by decide) (by decide)
  value := n.attr?_rename_of_ne s (by decide) (by decide) (by decide) (by decide)
  href := n.attr?_rename_of_ne s (by decide) (by decide) (by decide) (by decide)

theorem alike_rename (htoken : ∀ w, Text.IsToken w → Text.IsToken (s w)) (n : Node) :
    n.Alike s (n.rename s) := by
  induction n using induction_children with
  | h n ih =>
    refine .intro (n.sameAttributes_rename htoken) fun tag => ?_
    rw [children_rename, List.forall₂_map_right_iff, List.forall₂_same]
    exact ih tag

theorem alikeRoots_renameAll {roots : List Node} (hinj : Function.Injective s)
    (htoken : ∀ w, Text.IsToken w → Text.IsToken (s w))
    (hids : ∀ id ∈ ids roots, id ∉ libraryHrefs roots ∧ s id ∉ libraryHrefs roots) :
    AlikeRoots s roots (renameAll s roots) where
  injective := hinj
  nodes := by
    rw [renameAll_eq_map, List.forall₂_map_right_iff, List.forall₂_same]
    exact fun n _ => n.alike_rename htoken
  found id := by
    rw [IdIndex.get?_renameAll hinj]
    cases (IdIndex.ofRoots roots).get? id with
    | none => exact .none
    | some n => exact .some (n.alike_rename htoken)
  apart id hid href hhref := by
    obtain ⟨hold, hnew⟩ := hids id hid
    constructor
    · rintro rfl
      exact absurd hhref hnew
    · rintro rfl
      exact absurd hhref hold

end Node

/-- The tokens that say which ends of an association are navigable. -/
def Element.navigable (e : Element) : List String :=
  match e.form with
  | .association _ _ tokens => tokens
  | _ => []

/-- Whether no end of an association has a navigable token as its name, also when the token is
changed. -/
def Model.TokensApart (s : String → String) (m : Model) : Prop :=
  ∀ e ∈ m.elements, ∀ token ∈ e.navigable, ∀ p ∈ e.properties, p.name ≠ token ∧ p.name ≠ s token

instance (s : String → String) (m : Model) : Decidable (m.TokensApart s) :=
  inferInstanceAs (Decidable (∀ e ∈ m.elements, ∀ token ∈ e.navigable, ∀ p ∈ e.properties,
    p.name ≠ token ∧ p.name ≠ s token))

theorem Model.TokensApart.keepsNames {s : String → String} {m : Model} (h : m.TokensApart s) :
    m.KeepsNames s := by
  intro a first second tokens hform token htoken p hp
  -- A handle without an element would lead to a data type.
  have hlt : a < m.size := by
    by_contra hge
    rw [element, List.getD_eq_getElem?_getD, List.getElem?_eq_none (Nat.le_of_not_lt hge)] at hform
    cases hform
  have htoken' : token ∈ (m.element a).navigable := by
    simpa [Element.navigable, hform] using htoken
  have hp' : p ∈ (m.element a).properties := by simpa [Element.properties, hform] using hp
  obtain ⟨hold, hnew⟩ := h (m.element a) (mem_elements_of_lt hlt) token htoken' p hp'
  exact ⟨fun h => absurd h hnew, fun h => absurd h hold⟩

/-- Identifiers only name nodes. When each identifier of a document is replaced by one of its own,
the grammar stays the same, or there is none for the same cause. Identifiers may be repeated. -/
theorem transform_rename {s : String → String} (hinj : Function.Injective s)
    (htoken : ∀ w, Text.IsToken w → Text.IsToken (s w)) {roots : List Node}
    (hids : ∀ id ∈ Node.ids roots, id ∉ Node.libraryHrefs roots ∧ s id ∉ Node.libraryHrefs roots)
    (hnames : ∀ m, Model.ofNodes (.ofRoots roots) roots = .ok m → m.TokensApart s)
    (settings : Settings) :
    EndAlike Fault.SameCause Eq (transform settings roots)
      (transform settings (Node.renameAll s roots)) :=
  (transform_alike (Node.alikeRoots_renameAll hinj htoken hids) settings
    fun m hm => (hnames m hm).keepsNames).imp_fault fun _ _ hf => hf.cause

/-- An identifier with a mark at its end. -/
def marked (id : String) : String := id ++ "_"

theorem injective_marked : Function.Injective marked := by
  intro x y h
  exact (String.append_left_inj "_").mp h

theorem isToken_marked (w : String) (h : Text.IsToken w) : Text.IsToken (marked w) := by
  unfold Text.IsToken marked
  rw [String.toList_append]
  refine ⟨by simp, fun c hc => ?_⟩
  rcases List.mem_append.mp hc with hc | hc
  · exact h.2 c hc
  · obtain rfl : c = '_' := by simpa using hc
    decide

theorem timed_renamed : Function.Injective marked ∧
    (∀ w, Text.IsToken w → Text.IsToken (marked w)) ∧
    (∀ id ∈ Node.ids (machine ++ timer), id ∉ Node.libraryHrefs (machine ++ timer) ∧
      marked id ∉ Node.libraryHrefs (machine ++ timer)) ∧
    (∀ m, Model.ofNodes (.ofRoots (machine ++ timer)) (machine ++ timer) = .ok m →
      m.TokensApart marked) ∧
    transform {} (Node.renameAll marked (machine ++ timer)) = .ok timedGrammar := by
  have hids : ∀ id ∈ Node.ids (machine ++ timer), id ∉ Node.libraryHrefs (machine ++ timer) ∧
      marked id ∉ Node.libraryHrefs (machine ++ timer) := by decide +kernel
  have hread : (Model.ofNodes (.ofRoots (machine ++ timer)) (machine ++ timer)).toOption.all
      (fun m => decide (m.TokensApart marked)) = true := by decide +kernel
  have hnames : ∀ m, Model.ofNodes (.ofRoots (machine ++ timer)) (machine ++ timer) = .ok m →
      m.TokensApart marked := by
    intro m hm
    simpa [hm, Except.toOption] using hread
  have halike := transform_rename injective_marked isToken_marked hids hnames {}
  rw [transform_timed] at halike
  obtain ⟨g, hg, rfl⟩ := halike.exists_ok
  exact ⟨injective_marked, isToken_marked, hids, hnames, hg⟩

end ClassGrammar
