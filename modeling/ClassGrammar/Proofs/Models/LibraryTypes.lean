import ClassGrammar.Proofs.Models.SharedIdentifiers
import Mathlib.Data.List.TakeWhile

/-! Library types and the properties that are of them. There is one library type for a reference;
its metaclass is stated by a property with the reference, but not by all of them. -/
namespace ClassGrammar

/-- Whether a name is what follows the last number sign of a text, or the text if it has none. -/
def IsLastPart (text name : String) : Prop :=
  '#' ∉ name.toList ∧ (text = name ∨ ∃ front, text = front ++ "#" ++ name)

theorem isLastPart_libraryName (href : String) : IsLastPart href (libraryName href) := by
  have hsplit := List.takeWhile_append_dropWhile (p := (· ≠ '#')) (l := href.toList.reverse)
  have hname : (libraryName href).toList = (href.toList.reverse.takeWhile (· ≠ '#')).reverse := by
    simp [libraryName]
  constructor
  · intro hmem
    rw [hname, List.mem_reverse] at hmem
    simpa using List.mem_takeWhile_imp hmem
  · cases hrest : href.toList.reverse.dropWhile (· ≠ '#') with
    | nil =>
      rw [hrest, List.append_nil] at hsplit
      left
      rw [← String.toList_inj, hname, hsplit, List.reverse_reverse]
    | cons c front =>
      have hc : c = '#' := by
        have hhead := List.head?_dropWhile_not (· ≠ '#') href.toList.reverse
        rw [hrest] at hhead
        simpa using hhead
      right
      refine ⟨String.ofList front.reverse, ?_⟩
      have hlist := congrArg List.reverse hsplit
      rw [hrest, hc, List.reverse_append, List.reverse_reverse, ← hname] at hlist
      rw [← String.toList_inj, ← hlist]
      simp

theorem Node.libraryHref?_of_libraryType? {c : Node} {href : String} {kind : Option String}
    (h : c.libraryType? = some (href, kind)) : c.libraryHref? = some href := by
  obtain ⟨href', hhref, hmap⟩ := Option.bind_eq_some_iff.mp h
  obtain ⟨ref, -, hpair⟩ := Option.map_eq_some_iff.mp hmap
  rw [hhref, (Prod.mk.inj hpair).1]

namespace Model

/-- Whether the element at a handle is the library type of a reference: it is found under the
reference, is named after it, and has a metaclass of types that some property with the reference
states. -/
structure IsLibraryType (srcs : List Source) (m : Model) (href : String) (t : Handle) : Prop where
  found : m.lookup href = some t
  name : IsLastPart href (m.element t).name
  id : (m.element t).id = none
  bare : (m.element t).Bare
  kind : (TypeKind.ofText? (m.element t).form.kindText).isSome
  stated : ∃ n, .node n ∈ srcs ∧ ∃ c ∈ n.propertyNodes,
    c.libraryType? = some (href, some (m.element t).form.kindText)

/-- Whether all properties with a reference that have been read state the kind that `c` does. -/
def KindsAgree (srcs : List Source) (href : String) (c : Node) : Prop :=
  ∀ n, Source.node n ∈ srcs → ∀ c' ∈ n.propertyNodes, c'.libraryHref? = some href →
    c'.libraryType? = c.libraryType?

namespace ReadWith

variable {roots : List Node} {srcs : List Source} {m : Model} {href : String} {t : Handle}

theorem source_heads {src : Source} (hm : m.ReadWith roots srcs) (hsrc : srcs[t]? = some src) :
    src.Heads (m.element t) := by
  obtain ⟨hlt, rfl⟩ := List.getElem?_eq_some_iff.mp hsrc
  have hlt' : t < m.elements.length := hm.heads.length_eq ▸ hlt
  rw [element_of_getElem? (List.getElem?_eq_getElem hlt')]
  exact List.Forall₂.get hm.heads hlt hlt'

/-- A key that no element has as identifier is the reference of a library type. -/
theorem library_of_key {src : Source} (hm : m.ReadWith roots srcs)
    (hforeign : ∀ e ∈ m.elements, e.id ≠ some href) (hsrc : srcs[t]? = some src)
    (hkey : src.key? = some href) : ∃ kind, src = .library href kind := by
  cases src with
  | node n =>
    have hlt : t < m.size := by
      rw [size, ← hm.heads.length_eq]
      exact (List.getElem?_eq_some_iff.mp hsrc).1
    have hhead : n.Declares (m.element t) := hm.source_heads hsrc
    exact absurd (hhead.id.trans hkey) (hforeign _ (mem_elements_of_lt hlt))
  | library href' kind =>
    cases hkey
    exact ⟨kind, rfl⟩

theorem isLibraryType {kind : TypeKind} (hm : m.ReadWith roots srcs)
    (hforeign : ∀ e ∈ m.elements, e.id ≠ some href) (hsrc : srcs[t]? = some (.library href kind)) :
    m.IsLibraryType srcs href t := by
  have hhead : m.element t = ⟨none, libraryName href, .publicAccess, kind.form []⟩ :=
    hm.source_heads hsrc
  have hmem := List.mem_of_getElem? hsrc
  refine ⟨?_, ?_, ?_, ?_, ?_, ?_⟩
  · obtain ⟨t', hfound⟩ := Option.isSome_iff_exists.mp (hm.registered href kind hmem)
    obtain ⟨src, hsrc', hkey⟩ := hm.keyed href t' hfound
    obtain ⟨kind', rfl⟩ := hm.library_of_key hforeign hsrc' hkey
    rw [hfound, hm.once t' t href kind' kind hsrc' hsrc]
  · rw [hhead]
    exact isLastPart_libraryName href
  · rw [hhead]
  · rw [hhead]
    exact Element.bare_of_form rfl
  · rw [hhead, TypeKind.kindText_form, TypeKind.ofText?_text]
    rfl
  · obtain ⟨n, hn, c, hc, hstated⟩ := hm.used href kind hmem
    refine ⟨n, hn, c, hc, ?_⟩
    rw [hhead, TypeKind.kindText_form]
    exact hstated

/-- The library type of a property. When the properties with its reference agree, the metaclass is
the one that the property itself states. -/
theorem libraryType_of_draws {owner : Option Handle} {c : Node} {p : Property}
    (hm : m.ReadWith roots srcs) (hd : c.Draws srcs owner p) (hhref : c.libraryHref? = some href)
    (hforeign : ∀ e ∈ m.elements, e.id ≠ some href) :
    m.IsLibraryType srcs href p.type ∧ (KindsAgree srcs href c →
      c.libraryType? = some (href, some (m.element p.type).form.kindText)) := by
  obtain ⟨key, src, hkey, hsrc, hsame, -⟩ := hd.type
  obtain rfl : key = href := by
    obtain ⟨htype, ref, hchild, hattr⟩ := Node.libraryHref?_eq_some.mp hhref
    simpa [Node.typeKey?, htype, hchild, hattr] using hkey.symm
  obtain ⟨kind, rfl⟩ := hm.library_of_key hforeign hsrc hsame
  have hlibrary := hm.isLibraryType hforeign hsrc
  refine ⟨hlibrary, ?_⟩
  intro hagree
  obtain ⟨n', hn', c', hc', hstated⟩ := hlibrary.stated
  rw [← hagree n' hn' c' hc' (Node.libraryHref?_of_libraryType? hstated), hstated]

end ReadWith

/-- Whether the type of a property is a library type whenever the property states a reference that
no element has as identifier. The metaclass is that of a property with the same reference, and if
those agree it is the one that this property states, which then is one that types can have. -/
structure TypesByReference (srcs : List Source) (m : Model) (c : Node) (p : Property) : Prop where
  shared : ∀ href kind, c.libraryType? = some (href, some (TypeKind.text kind)) →
    (∀ e ∈ m.elements, e.id ≠ some href) → m.IsLibraryType srcs href p.type
  exact : ∀ href, c.libraryHref? = some href → (∀ e ∈ m.elements, e.id ≠ some href) →
    KindsAgree srcs href c → m.IsLibraryType srcs href p.type ∧
      c.libraryType? = some (href, some (m.element p.type).form.kindText)

/-- Library types mean what the properties with their references say. This holds for all properties
that have been read, whatever the identifiers of the nodes are. -/
theorem libraryTypes_of_ofNodes {roots : List Node} {m : Model}
    (h : Model.ofNodes (.ofRoots roots) roots = .ok m) :
    ∃ srcs, m.ReadWith roots srcs ∧ ∀ (h : Handle) n, srcs[h]? = some (.node n) →
      List.Forall₂ (m.TypesByReference srcs) n.propertyNodes (m.element h).properties := by
  obtain ⟨srcs, hm⟩ := exists_readWith h
  refine ⟨srcs, hm, fun h n hsrc => (hm.properties h n hsrc).imp fun c p hd => ?_⟩
  constructor
  · intro href kind hstated hforeign
    have hhref := Node.libraryHref?_of_libraryType? hstated
    exact (hm.libraryType_of_draws hd hhref hforeign).1
  · intro href hhref hforeign hagree
    obtain ⟨hlibrary, hexact⟩ := hm.libraryType_of_draws hd hhref hforeign
    exact ⟨hlibrary, hexact hagree⟩

/-- A property that is typed by a reference. -/
def referring (name href : String) (kind : Option String) : Node :=
  .mk [.text "@_name" name,
    .one "type" (.mk (kind.toList.map (.text "@_xmi:type") ++ [.text "@_href" href]))]

def ledgerNode (properties : List Node) : Node :=
  .mk [.text "@_xmi:type" "uml:Class", .text "@_xmi:id" "ledger", .text "@_name" "Ledger",
    .many "ownedAttribute" properties]

/-- A title and a note of the same library type, and an amount of another one. -/
def ledgerNodes : List Node := [ledgerNode [
  referring "title" "types#String" (some "uml:PrimitiveType"),
  referring "amount" "types#Money" (some "uml:DataType"),
  referring "note" "types#String" (some "uml:PrimitiveType")]]

def ledger : Model where
  elements := [
    ⟨some "ledger", "Ledger", .publicAccess, .classifier false [
      ⟨none, "title", .publicAccess, .one, .plain, 1, none⟩,
      ⟨none, "amount", .publicAccess, .one, .plain, 2, none⟩,
      ⟨none, "note", .publicAccess, .one, .plain, 1, none⟩] []⟩,
    ⟨none, "String", .publicAccess, .primitiveType⟩,
    ⟨none, "Money", .publicAccess, .dataType⟩]
  roots := [0]
  table := [("types#Money", 2), ("types#String", 1), ("ledger", 0)]

theorem ledger_libraryTypes :
    ofNodes (.ofRoots ledgerNodes) ledgerNodes = .ok ledger ∧
      Node.libraryTypes ledgerNodes = [("types#String", some "uml:PrimitiveType"),
        ("types#Money", some "uml:DataType"), ("types#String", some "uml:PrimitiveType")] ∧
      ledger.elements.filterMap (·.id) = ["ledger"] ∧
      ∃ srcs, ledger.ReadWith ledgerNodes srcs ∧ ∀ (h : Handle) n, srcs[h]? = some (.node n) →
        List.Forall₂ (ledger.TypesByReference srcs) n.propertyNodes
          (ledger.element h).properties := by
  have hread : ofNodes (.ofRoots ledgerNodes) ledgerNodes = .ok ledger := by decide +kernel
  exact ⟨hread, by decide +kernel, by decide, libraryTypes_of_ofNodes hread⟩

/-- The types of the properties of the first element, by name and metaclass. -/
def firstTypes (roots : List Node) : Except Fault (List (String × String)) :=
  (ofNodes (.ofRoots roots) roots).map fun m =>
    (m.element 0).properties.map fun p =>
      ((m.element p.type).name, (m.element p.type).form.metaclass)

/-- A property gets the library type that another one with its reference has brought in, whatever
kind it states itself, or none. A reference that is an identifier leads to the element of that. -/
theorem libraryTypes_mistaken :
    firstTypes [ledgerNode [
        referring "title" "types#String" (some "uml:PrimitiveType"),
        referring "note" "types#String" (some "uml:Class"),
        referring "mark" "types#String" none]] = .ok [
      ("String", "PrimitiveType"), ("String", "PrimitiveType"), ("String", "PrimitiveType")] ∧
    firstTypes [ledgerNode [referring "page" "ledger" (some "uml:PrimitiveType")]] =
      .ok [("Ledger", "Class")] := by
  decide +kernel

end Model
end ClassGrammar
