import ClassGrammar.Proofs.Outlines.TopLevelNodes

/-! The grammar of top-level nodes, read off the nodes without a class model. Identifiers are looked
up with a function, so what is read depends on the nodes and on nothing that a run builds. -/
namespace ClassGrammar

theorem TypeKind.text_inj {kind kind' : TypeKind} (h : kind.text = kind'.text) : kind = kind' := by
  have hsome : some kind = some kind' := by rw [← ofText?_text kind, h, ofText?_text]
  exact Option.some.inj hsome

namespace Source

/-- An element with the name and the kind of a source, without members. -/
def element (src : Source) : Element where
  id := none
  name := src.name?.getD ""
  visibility := .publicAccess
  form := ((src.kind?.bind TypeKind.ofText?).getD .dataType).form []

theorem element_eq {src : Source} {kind : TypeKind} {name : String}
    (hk : src.kind?.bind TypeKind.ofText? = some kind) (hn : src.name? = some name) :
    src.element = ⟨none, name, .publicAccess, kind.form []⟩ := by
  simp only [element, hn, hk, Option.getD_some]

end Source

namespace Node

section Lookup

variable (find : String → Option Node)

/-- The source of the type of a property. -/
def typeSource? (c : Node) : Option Source :=
  match c.attr? "type" with
  | some id => (find id).bind fun n => (TypeKind.ofNode? n).map fun _ => .node n
  | none => (c.child? "type").bind fun ref => (ref.attr? "href").bind fun href =>
      (ref.kind?.bind TypeKind.ofText?).map (Source.library href)

/-- The node of the general class of a generalization. -/
def generalNode? (c : Node) : Option Node :=
  (c.attr? "general").bind fun id => (find id).filter isClass

/-- An element like the type of a property. -/
def typeElement (c : Node) : Element := ((c.typeSource? find).map Source.element).getD default

/-- The bounds of a property, if they can be read. -/
def multiplicity? (c : Node) : Option Multiplicity := (readMultiplicity c "").toOption

/-- What a node states of a property. Without a name it is named after its type. -/
def property (c : Node) : Property where
  id := c.id?
  name := c.name?.getD (Text.lowerFirst (c.typeElement find).name)
  visibility := .ofText (c.attr? "visibility")
  multiplicity := c.multiplicity?.getD .one
  aggregation := .ofText (c.attr? "aggregation")
  type := 0
  association := none

def propertyAttribute (s : Settings) (role : Role) (c : Node) : Attribute :=
  .ofProperty s.compositeOptionality role (c.property find) (c.typeElement find)

def isAssociation (n : Node) : Bool := n.kind? = some "uml:Association"

def navigableTokens (n : Node) : List String := (n.attr? "navigableOwnedEnd").elim [] Text.words

def endNodes (n : Node) : List Node := if n.isAssociation then n.children "ownedEnd" else []

/-- The selected ends of an association, each with the opposite end. -/
def navigated (n : Node) : List (Node × Node) :=
  match n.endNodes with
  | [first, second] => (selectedEnds (first.property find) n.navigableTokens).map fun k =>
      if k = 0 then (first, second) else (second, first)
  | _ => []

/-- Whether a property states the identifier of a node as its type. -/
def isTypeOf (n c : Node) : Bool := n.id?.isSome && c.attr? "type" = n.id?

/-- The ends of some associations that become attributes of a node. -/
def receivedEnds (associations : List Node) (n : Node) : List Node :=
  ((associations.flatMap (navigated find)).filter fun e => n.isTypeOf e.2).map Prod.fst

/-- The children that become attributes: only those of classes are read. -/
def attributeNodes (n : Node) : List Node := if n.isClass then n.children "ownedAttribute" else []

def generalNodes (n : Node) : List Node :=
  if n.isClass then (n.children "generalization").filterMap (generalNode? find) else []

def declaresInterface (n : Node) : Bool := (Source.node n).declaresInterface

/-- The interface that a top-level node declares. -/
def interface (s : Settings) (associations : List Node) (n : Node) : Interface where
  name := n.name?.getD ""
  superTypes := (n.generalNodes find).map fun general => ⟨general.name?.getD "", none⟩
  attributes := n.attributeNodes.map (propertyAttribute find s .owned) ++
    (n.receivedEnds find associations).map (propertyAttribute find s .associationEnd)

/-- The union that a top-level node declares. -/
def union? (n : Node) : Option Union :=
  if n.kind? = some "uml:Enumeration" then
    some ⟨n.name?.getD "", (n.children "ownedLiteral").map fun c => c.name?.getD ""⟩
  else none

end Lookup

variable {ix : IdIndex} {c n : Node} {src : Source}

theorem typeSource?_eq_some : c.typeSource? ix.get? = some src ↔ c.TypedBy ix src := by
  unfold typeSource?
  constructor
  · intro h
    split at h
    next id hid =>
      obtain ⟨n, hn, h⟩ := Option.bind_eq_some_iff.mp h
      obtain ⟨kind, hk, rfl⟩ := Option.map_eq_some_iff.mp h
      exact .node hid hn hk
    next hid =>
      obtain ⟨ref, href, h⟩ := Option.bind_eq_some_iff.mp h
      obtain ⟨key, hkey, h⟩ := Option.bind_eq_some_iff.mp h
      obtain ⟨kind, hk, rfl⟩ := Option.map_eq_some_iff.mp h
      exact .library (libraryHref?_eq_some.mpr ⟨hid, ref, href, hkey⟩) href hk
  · intro h
    cases h with
    | node key found isType => simp [key, found, isType]
    | library key child isType =>
      obtain ⟨hid, ref, href, hkey⟩ := libraryHref?_eq_some.mp key
      obtain rfl := Option.some.inj (child.symm.trans href)
      simp only [hid, child, hkey, Option.bind_some, isType, Option.map_some]

theorem generalNode?_eq_some :
    c.generalNode? ix.get? = some n ↔ c.Specializes ix (.node n) := by
  unfold generalNode?
  constructor
  · intro h
    obtain ⟨id, hid, h⟩ := Option.bind_eq_some_iff.mp h
    obtain ⟨hn, hc⟩ := Option.filter_eq_some_iff.mp h
    exact .node hid hn hc
  · intro h
    cases h with
    | node key found isClass => simp [key, found, isClass]

/-- The name of a property is for faults only; it has no part in the bounds. -/
theorem readMultiplicity_eq_ok {name : String} {m : Multiplicity} :
    readMultiplicity c name = .ok m ↔ c.multiplicity? = some m := by
  have hlower : (readLower c name).toOption = (readLower c "").toOption := by
    unfold readLower
    split
    · rfl
    · split
      · rfl
      · split <;> rfl
  have hupper : (readUpper c name).toOption = (readUpper c "").toOption := by
    unfold readUpper
    split
    · rfl
    · dsimp only
      split
      · rfl
      · split <;> rfl
  have hall : (readMultiplicity c name).toOption = c.multiplicity? := by
    unfold multiplicity? readMultiplicity
    cases hl : readLower c name <;> cases hl' : readLower c "" <;>
      cases hu : readUpper c name <;> cases hu' : readUpper c "" <;>
      simp_all [Except.toOption, bind, Except.bind, pure, Except.pure]
  rw [← hall]
  cases readMultiplicity c name <;> simp [Except.toOption]

end Node
end ClassGrammar
