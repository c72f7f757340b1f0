import ClassGrammar.Model.Build
import Mathlib.Data.List.Forall2
import Mathlib.Logic.Relation

/-! Where the elements of a class model come from, and what a draft gains when one is added. An
element is read from a node of the document or stands for a library type. -/
namespace ClassGrammar

namespace Element

/-- The attributes of a class, or the ends of an association. -/
def properties (e : Element) : List Property :=
  match e.form with
  | .classifier _ attributes _ => attributes
  | .association first second _ => [first, second]
  | _ => []

def generalizations (e : Element) : List Generalization :=
  match e.form with
  | .classifier _ _ generalizations => generalizations
  | _ => []

/-- Whether an element has no members. -/
def Bare (e : Element) : Prop := e.properties = [] ∧ e.generalizations = []

theorem bare_of_form {e : Element} {kind : TypeKind} {literals : List Literal}
    (h : e.form = kind.form literals) : e.Bare := by
  unfold Bare properties generalizations
  rw [h]
  cases kind <;> exact ⟨rfl, rfl⟩

end Element

/-- Where an element comes from: a node, or a reference to a type outside the document. -/
inductive Source where
  | node (n : Node)
  | library (href : String) (kind : TypeKind)

/-- The key under which the element of a source is registered. -/
def Source.key? : Source → Option String
  | node n => n.id?
  | library href _ => some href

/-- The metaclass as nodes state it. -/
def Form.kindText : Form → String
  | classifier false _ _ => "uml:Class"
  | classifier true _ _ => "uml:Interface"
  | dataType => "uml:DataType"
  | primitiveType => "uml:PrimitiveType"
  | enumeration _ => "uml:Enumeration"
  | association _ _ _ => "uml:Association"

namespace TypeKind

def text : TypeKind → String
  | classType => "uml:Class"
  | interfaceType => "uml:Interface"
  | dataType => "uml:DataType"
  | primitiveType => "uml:PrimitiveType"
  | enumeration => "uml:Enumeration"

theorem eq_text_of_ofText? {s : String} {kind : TypeKind} (h : ofText? s = some kind) :
    s = kind.text := by
  unfold ofText? at h
  split at h <;> cases h <;> rfl

theorem ofText?_text (kind : TypeKind) : ofText? kind.text = some kind := by
  cases kind <;> rfl

theorem bind_ofText?_eq_some {text : Option String} {kind : TypeKind} :
    text.bind ofText? = some kind ↔ text = some kind.text := by
  constructor
  · intro h
    obtain ⟨s, rfl, hs⟩ := Option.bind_eq_some_iff.mp h
    rw [eq_text_of_ofText? hs]
  · rintro rfl
    exact ofText?_text kind

theorem kind?_of_ofNode? {n : Node} {kind : TypeKind} (h : ofNode? n = some kind) :
    n.kind? = some kind.text :=
  bind_ofText?_eq_some.mp h

@[simp] theorem kindText_form (kind : TypeKind) (literals : List Literal) :
    (kind.form literals).kindText = kind.text := by
  cases kind <;> rfl

end TypeKind

/-- Whether the node declares a class, so that its members are read from a queue. -/
def Node.isClass (n : Node) : Bool := (TypeKind.ofNode? n).any TypeKind.isClass

namespace Node

theorem isClass_eq_true {n : Node} :
    n.isClass = true ↔ ∃ kind, TypeKind.ofNode? n = some kind ∧ kind.isClass = true := by
  unfold isClass
  cases TypeKind.ofNode? n <;> simp

structure StatesLiteral (c : Node) (l : Literal) : Prop where
  id : l.id = c.id?
  name : c.name? = some l.name
  visibility : l.visibility = .ofText (c.attr? "visibility")

/-- What an element has from its node, members apart. Only associations may lack a name. -/
structure Declares (n : Node) (e : Element) : Prop where
  kind : n.kind? = some e.form.kindText
  id : e.id = n.id?
  name : n.name? = some e.name ∨
    n.kind? = some "uml:Association" ∧ n.name? = none ∧ e.name = ""
  visibility : e.visibility = .ofText (n.attr? "visibility")
  literals : ∀ ls, e.form = .enumeration ls →
    List.Forall₂ StatesLiteral (n.children "ownedLiteral") ls

/-- The key of the type of a property: an identifier, or else the reference of a library type. -/
def typeKey? (c : Node) : Option String :=
  match c.attr? "type" with
  | some id => some id
  | none => (c.child? "type").bind (·.attr? "href")

/-- The reference of the library type of a property. -/
def libraryHref? (c : Node) : Option String :=
  match c.attr? "type" with
  | some _ => none
  | none => (c.child? "type").bind (·.attr? "href")

theorem libraryHref?_eq_some {c : Node} {href : String} : c.libraryHref? = some href ↔
    c.attr? "type" = none ∧ ∃ ref, c.child? "type" = some ref ∧ ref.attr? "href" = some href := by
  unfold libraryHref?
  cases c.attr? "type" with
  | none => simp [Option.bind_eq_some_iff]
  | some id => simp

/-- What a property has from its node. The type is found under its key. -/
structure StatesProperty (m : Model) (owner : Option Handle) (c : Node) (p : Property) :
    Prop where
  id : p.id = c.id?
  type : ∃ key, c.typeKey? = some key ∧ m.lookup key = some p.type
  bound : p.type < m.size
  name : p.name = c.name?.getD (Text.lowerFirst (m.element p.type).name)
  visibility : p.visibility = .ofText (c.attr? "visibility")
  multiplicity : readMultiplicity c p.name = .ok p.multiplicity
  aggregation : p.aggregation = .ofText (c.attr? "aggregation")
  association : p.association = owner

structure StatesGeneralization (m : Model) (c : Node) (g : Generalization) : Prop where
  id : g.id = c.id?
  target : ∃ key h, c.attr? "general" = some key ∧ m.lookup key = some h ∧ h < m.size ∧
    g.targets = [h]

/-- What the element at a handle has from the children of its node. -/
def StatesMembers (m : Model) (h : Handle) (n : Node) (e : Element) : Prop :=
  match e.form with
  | .classifier _ attributes generalizations =>
      List.Forall₂ (StatesProperty m none) (n.children "ownedAttribute") attributes ∧
      List.Forall₂ (StatesGeneralization m) (n.children "generalization") generalizations
  | .association first second tokens =>
      List.Forall₂ (StatesProperty m (some h)) (n.children "ownedEnd") [first, second] ∧
      tokens = (n.attr? "navigableOwnedEnd").elim [] Text.words
  | _ => True

end Node

namespace Source

/-- Whether the element of a source can be the type of a property. -/
def IsType : Source → Prop
  | node n => (TypeKind.ofNode? n).isSome
  | library _ _ => True

/-- What an element has from its source, members apart. -/
def Heads : Source → Element → Prop
  | node n, e => n.Declares e
  | library href kind, e => e = ⟨none, libraryName href, .publicAccess, kind.form []⟩

/-- What enters the queue with the element at a handle. -/
def openings (h : Handle) : Source → List (Handle × Node)
  | node n => if n.isClass then [(h, n)] else []
  | library _ _ => []

end Source

namespace Model

/-- What stays of a model while it is read: keys keep their handles, elements their names. -/
structure Keeps (m m' : Model) : Prop where
  size : m.size ≤ m'.size
  lookup : ∀ key h, m.lookup key = some h → m'.lookup key = some h
  name : ∀ h < m.size, (m'.element h).name = (m.element h).name

theorem Keeps.refl (m : Model) : m.Keeps m := ⟨Nat.le_refl _, fun _ _ h => h, fun _ _ => rfl⟩

theorem Keeps.trans {m₁ m₂ m₃ : Model} (h : m₁.Keeps m₂) (h' : m₂.Keeps m₃) : m₁.Keeps m₃ where
  size := Nat.le_trans h.size h'.size
  lookup key a ha := h'.lookup key a (h.lookup key a ha)
  name a ha := (h'.name a (Nat.lt_of_lt_of_le ha h.size)).trans (h.name a ha)

/-- Whether the table holds handles of elements only. -/
def Bounded (m : Model) : Prop := ∀ key h, m.lookup key = some h → h < m.size

end Model

namespace Node

theorem StatesProperty.keeps {m m' : Model} (hm : m.Keeps m') {owner : Option Handle} {c : Node}
    {p : Property} (h : c.StatesProperty m owner p) : c.StatesProperty m' owner p where
  id := h.id
  type := by
    obtain ⟨key, hc, hl⟩ := h.type
    exact ⟨key, hc, hm.lookup key _ hl⟩
  bound := Nat.lt_of_lt_of_le h.bound hm.size
  name := by rw [h.name, hm.name _ h.bound]
  visibility := h.visibility
  multiplicity := h.multiplicity
  aggregation := h.aggregation
  association := h.association

theorem StatesGeneralization.keeps {m m' : Model} (hm : m.Keeps m') {c : Node}
    {g : Generalization} (h : c.StatesGeneralization m g) : c.StatesGeneralization m' g where
  id := h.id
  target := by
    obtain ⟨key, a, hc, hl, ha, ht⟩ := h.target
    exact ⟨key, a, hc, hm.lookup key a hl, Nat.lt_of_lt_of_le ha hm.size, ht⟩

theorem StatesMembers.keeps {m m' : Model} (hm : m.Keeps m') {a : Handle} {n : Node}
    {e : Element} (h : n.StatesMembers m a e) : n.StatesMembers m' a e := by
  unfold StatesMembers at h ⊢
  split at h
  · exact ⟨h.1.imp fun _ _ => StatesProperty.keeps hm,
      h.2.imp fun _ _ => StatesGeneralization.keeps hm⟩
  · exact ⟨h.1.imp fun _ _ => StatesProperty.keeps hm, h.2⟩
  · trivial

end Node

namespace Draft

/-- The draft after the element of one more source. Types come without their members. -/
structure Adds (src : Source) (d d' : Draft) : Prop where
  element : ∃ e, src.Heads e ∧ d'.model.elements = d.model.elements ++ [e]
  bare : src.IsType → ∀ e, d'.model.elements[d.model.size]? = some e → e.Bare
  roots : d'.model.roots = d.model.roots
  lookup : ∀ key, d'.model.lookup key =
    if src.key? = some key then some d.model.size else d.model.lookup key
  queue : d'.queue = d.queue ++ src.openings d.model.size

/-- Whether no element is registered under the key of the source. -/
def Lacks (d : Draft) (src : Source) : Prop :=
  ∀ key, src.key? = some key → d.model.lookup key = none

namespace Adds

variable {src : Source} {d d' : Draft}

theorem size (h : d.Adds src d') : d'.model.size = d.model.size + 1 := by
  obtain ⟨e, -, he⟩ := h.element
  simp [Model.size, he]

theorem getElem? (h : d.Adds src d') {a : Handle} (ha : a < d.model.size) :
    d'.model.elements[a]? = d.model.elements[a]? := by
  obtain ⟨e, -, he⟩ := h.element
  rw [he, List.getElem?_append_left ha]

theorem heads (h : d.Adds src d') {e : Element}
    (he : d'.model.elements[d.model.size]? = some e) : src.Heads e := by
  obtain ⟨e', hh, he'⟩ := h.element
  rw [he'] at he
  obtain rfl : e' = e := Option.some.inj (List.getElem?_concat_length.symm.trans he)
  exact hh

theorem keeps (h : d.Adds src d') (hl : d.Lacks src) : d.model.Keeps d'.model where
  size := by
    rw [h.size]
    exact Nat.le_succ _
  lookup key a ha := by
    rw [h.lookup]
    split
    next hk => simp [hl key hk] at ha
    next => exact ha
  name a ha := by simp only [Model.element, List.getD_eq_getElem?_getD, h.getElem? ha]

theorem bounded (h : d.Adds src d') (hb : d.model.Bounded) : d'.model.Bounded := by
  intro key a ha
  rw [h.lookup] at ha
  rw [h.size]
  split at ha
  · cases ha
    exact Nat.lt_succ_self _
  · exact Nat.lt_succ_of_lt (hb key a ha)

end Adds

/-- A draft grows by elements of sources that it lacks. -/
def Grows (P : Source → Prop) : Draft → Draft → Prop :=
  Relation.ReflTransGen fun d d' => ∃ src, P src ∧ d.Lacks src ∧ d.Adds src d'

namespace Grows

variable {P : Source → Prop} {d d' : Draft}

theorem of_adds {src : Source} (hp : P src) (hl : d.Lacks src) (h : d.Adds src d') :
    d.Grows P d' :=
  .single ⟨src, hp, hl, h⟩

theorem mono {Q : Source → Prop} (hpq : ∀ src, P src → Q src) (h : d.Grows P d') :
    d.Grows Q d' := by
  induction h with
  | refl => exact .refl
  | tail _ hs ih =>
    obtain ⟨src, hp, hs⟩ := hs
    exact ih.tail ⟨src, hpq src hp, hs⟩

theorem keeps (h : d.Grows P d') : d.model.Keeps d'.model := by
  induction h with
  | refl => exact Model.Keeps.refl _
  | tail _ hs ih =>
    obtain ⟨src, -, hl, ha⟩ := hs
    exact ih.trans (ha.keeps hl)

theorem bounded (h : d.Grows P d') (hb : d.model.Bounded) : d'.model.Bounded := by
  induction h with
  | refl => exact hb
  | tail _ hs ih =>
    obtain ⟨src, -, -, ha⟩ := hs
    exact ha.bounded ih

theorem roots (h : d.Grows P d') : d'.model.roots = d.model.roots := by
  induction h with
  | refl => rfl
  | tail _ hs ih =>
    obtain ⟨src, -, -, ha⟩ := hs
    exact ha.roots.trans ih

/-- A key that is new belongs to one of the sources. -/
theorem lookup_new (h : d.Grows P d') {key : String} {a : Handle}
    (ha : d'.model.lookup key = some a) :
    d.model.lookup key = some a ∨ ∃ src, P src ∧ src.key? = some key := by
  induction h with
  | refl => exact .inl ha
  | tail _ hs ih =>
    obtain ⟨src, hp, -, hadds⟩ := hs
    rw [hadds.lookup] at ha
    split at ha
    next hk => exact .inr ⟨src, hp, hk⟩
    next => exact ih ha

end Grows
end Draft
end ClassGrammar
