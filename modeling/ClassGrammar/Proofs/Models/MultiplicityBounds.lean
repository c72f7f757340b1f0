import ClassGrammar.Proofs.Models.Numerals

/-! The bounds of a property, from the texts that state them. -/
namespace ClassGrammar

namespace Text

/-- Whether a text is a mark for many. -/
def IsMark (s : String) : Prop := s = "*" ∨ s = "-1"

theorem IsMark.not_denotes {s : String} (h : IsMark s) (n : Nat) : ¬ Denotes s n := by
  rintro ⟨digits, hne, hdigits, hs, -⟩
  obtain ⟨c, rest, rfl⟩ := List.exists_cons_of_ne_nil hne
  have hchars : s.toList = ['*'] ∨ s.toList = ['-', '1'] := by
    rcases h with rfl | rfl
    · exact .inl rfl
    · exact .inr rfl
  have hhead : c = '*' ∨ c = '-' := by
    rcases hchars with hchars | hchars <;> rw [hchars] at hs <;> rcases hs with hs | hs
    · exact .inl (List.cons.inj hs).1.symm
    · simp at hs
    · exact .inr (List.cons.inj hs).1.symm
    · simp at hs
  have hc := hdigits c List.mem_cons_self
  rcases hhead with rfl | rfl <;> revert hc <;> decide

end Text

namespace Node

/-- Whether a property states a bound by a text, and what is left of it without blanks. -/
structure WritesBound (c : Node) (tag value text : String) : Prop where
  written : ∃ bound, c.child? tag = some bound ∧ bound.attr? "value" = some value
  trims : Text.Trims value text

/-- The lower bound of a property. -/
inductive StatesLower (c : Node) : Nat → Prop where
  | noBound (absent : c.child? "lowerValue" = none) : StatesLower c 1
  | noValue {bound : Node} (child : c.child? "lowerValue" = some bound)
      (absent : bound.attr? "value" = none) : StatesLower c 0
  | number {value text : String} {n : Nat} (writes : c.WritesBound "lowerValue" value text)
      (denotes : Text.Denotes text n) (fits : n ≤ 4294967295) : StatesLower c n

/-- The upper bound of a property as it is kept. -/
inductive StatesUpper (c : Node) : Nat → Prop where
  | noBound (absent : c.child? "upperValue" = none) : StatesUpper c 1
  | noValue {bound : Node} (child : c.child? "upperValue" = some bound)
      (absent : bound.attr? "value" = none) : StatesUpper c 1
  | mark {value text : String} (writes : c.WritesBound "upperValue" value text)
      (isMark : Text.IsMark text) : StatesUpper c Multiplicity.many
  | number {value text : String} {n : Nat} (writes : c.WritesBound "upperValue" value text)
      (denotes : Text.Denotes text n) (fits : n ≤ 4294967295) : StatesUpper c (min n 2)

/-- Whether a property may have more than one value. -/
def StatesMany (c : Node) : Prop :=
  ∃ value text, c.WritesBound "upperValue" value text ∧
    (Text.IsMark text ∨ ∃ n, Text.Denotes text n ∧ 1 < n)

variable {c : Node} {tag value text : String}

theorem WritesBound.trim_eq (h : c.WritesBound tag value text) : Text.trim value = text :=
  Text.trim_eq_iff.mpr h.trims

/-- A property has no bound, or one without a value, or it writes it. -/
theorem bound_cases (c : Node) (tag : String) : c.child? tag = none ∨
    (∃ bound, c.child? tag = some bound ∧ bound.attr? "value" = none) ∨
    ∃ value text, c.WritesBound tag value text := by
  cases hchild : c.child? tag with
  | none => exact .inl rfl
  | some bound =>
    cases hvalue : bound.attr? "value" with
    | none => exact .inr (.inl ⟨bound, rfl, hvalue⟩)
    | some value =>
      exact .inr (.inr ⟨value, Text.trim value, ⟨bound, hchild, hvalue⟩, Text.trim_eq_iff.mp rfl⟩)

theorem WritesBound.unique {value' text' : String} (h : c.WritesBound tag value text)
    (h' : c.WritesBound tag value' text') : text = text' := by
  obtain ⟨bound, hchild, hvalue⟩ := h.written
  obtain ⟨bound', hchild', hvalue'⟩ := h'.written
  obtain rfl := Option.some.inj (hchild.symm.trans hchild')
  obtain rfl := Option.some.inj (hvalue.symm.trans hvalue')
  exact h.trim_eq.symm.trans h'.trim_eq

theorem StatesUpper.many_iff {upper : Nat} (h : c.StatesUpper upper) :
    1 < upper ↔ c.StatesMany := by
  cases h with
  | noBound absent =>
    constructor
    · intro hlt
      omega
    · rintro ⟨value, text, ⟨⟨bound, hchild, -⟩, -⟩, -⟩
      rw [absent] at hchild
      cases hchild
  | noValue child absent =>
    constructor
    · intro hlt
      omega
    · rintro ⟨value, text, ⟨⟨bound, hchild, hvalue⟩, -⟩, -⟩
      obtain rfl := Option.some.inj (child.symm.trans hchild)
      rw [absent] at hvalue
      cases hvalue
  | mark writes isMark =>
    constructor
    · intro _
      exact ⟨_, _, writes, .inl isMark⟩
    · intro _
      decide
  | @number value text n writes denotes fits =>
    constructor
    · intro hlt
      have hn : 1 < n := by omega
      exact ⟨value, text, writes, .inr ⟨n, denotes, hn⟩⟩
    · rintro ⟨value', text', writes', hmany⟩
      obtain rfl := writes.unique writes'
      rcases hmany with hmark | ⟨n', denotes', hn'⟩
      · exact absurd denotes (hmark.not_denotes n)
      · obtain rfl := denotes.unique denotes'
        omega

end Node

section Read

variable {c : Node} {name value text : String}

theorem readLower_noBound (h : c.child? "lowerValue" = none) : readLower c name = .ok 1 := by
  rw [readLower, h]

theorem readLower_noValue {bound : Node} (hchild : c.child? "lowerValue" = some bound)
    (hvalue : bound.attr? "value" = none) : readLower c name = .ok 0 := by
  simp only [readLower, hchild, hvalue]

theorem readLower_of_writes (h : c.WritesBound "lowerValue" value text) :
    readLower c name = (Text.word? text).elim (.error (.invalidMultiplicity name value)) .ok := by
  obtain ⟨bound, hchild, hvalue⟩ := h.written
  simp only [readLower, hchild, hvalue, h.trim_eq]
  cases Text.word? text <;> rfl

theorem readUpper_noBound (h : c.child? "upperValue" = none) : readUpper c name = .ok 1 := by
  rw [readUpper, h, Option.bind_none]

theorem readUpper_noValue {bound : Node} (hchild : c.child? "upperValue" = some bound)
    (hvalue : bound.attr? "value" = none) : readUpper c name = .ok 1 := by
  rw [readUpper, hchild, Option.bind_some, hvalue]

theorem readUpper_of_writes (h : c.WritesBound "upperValue" value text) :
    readUpper c name = if text = "*" ∨ text = "-1" then .ok Multiplicity.many
      else (Text.word? text).elim (.error (.invalidMultiplicity name text)) .ok := by
  obtain ⟨bound, hchild, hvalue⟩ := h.written
  simp only [readUpper, hchild, Option.bind_some, hvalue, h.trim_eq]
  cases Text.word? text <;> rfl

theorem readLower_eq_ok {n : Nat} : readLower c name = .ok n ↔ c.StatesLower n := by
  constructor
  · intro h
    rcases c.bound_cases "lowerValue" with habsent | ⟨bound, hchild, hvalue⟩ | ⟨value, text, hw⟩
    · rw [readLower_noBound habsent] at h
      cases h
      exact .noBound habsent
    · rw [readLower_noValue hchild hvalue] at h
      cases h
      exact .noValue hchild hvalue
    · rw [readLower_of_writes hw, elim_eq_ok] at h
      obtain ⟨hdenotes, hfits⟩ := Text.word?_eq_some_iff.mp h
      exact .number hw hdenotes hfits
  · intro h
    cases h with
    | noBound absent => exact readLower_noBound absent
    | noValue child absent => exact readLower_noValue child absent
    | number writes denotes fits =>
      rw [readLower_of_writes writes, elim_eq_ok]
      exact Text.word?_eq_some_iff.mpr ⟨denotes, fits⟩

/-- The fault of a lower bound shows its text as it stands in the document. -/
theorem readLower_eq_error {f : Fault} : readLower c name = .error f ↔
    ∃ value text, c.WritesBound "lowerValue" value text ∧ Text.IsNoWord text ∧
      f = .invalidMultiplicity name value := by
  constructor
  · intro h
    rcases c.bound_cases "lowerValue" with habsent | ⟨bound, hchild, hvalue⟩ | ⟨value, text, hw⟩
    · rw [readLower_noBound habsent] at h
      cases h
    · rw [readLower_noValue hchild hvalue] at h
      cases h
    · rw [readLower_of_writes hw, elim_eq_error] at h
      obtain ⟨hno, rfl⟩ := h
      exact ⟨value, text, hw, Text.word?_eq_none_iff.mp hno, rfl⟩
  · rintro ⟨value, text, hw, hno, rfl⟩
    rw [readLower_of_writes hw, elim_eq_error]
    exact ⟨Text.word?_eq_none_iff.mpr hno, rfl⟩

theorem readUpper_eq_ok {upper : Nat} :
    (∃ k, readUpper c name = .ok k ∧ upper = min k Multiplicity.many) ↔ c.StatesUpper upper := by
  constructor
  · rintro ⟨k, h, rfl⟩
    rcases c.bound_cases "upperValue" with habsent | ⟨bound, hchild, hvalue⟩ | ⟨value, text, hw⟩
    · rw [readUpper_noBound habsent] at h
      cases h
      exact .noBound habsent
    · rw [readUpper_noValue hchild hvalue] at h
      cases h
      exact .noValue hchild hvalue
    · rw [readUpper_of_writes hw] at h
      split at h
      next hmark =>
        cases h
        exact .mark hw hmark
      next =>
        obtain ⟨hdenotes, hfits⟩ := Text.word?_eq_some_iff.mp (elim_eq_ok.mp h)
        exact .number hw hdenotes hfits
  · intro h
    cases h with
    | noBound absent => exact ⟨1, readUpper_noBound absent, rfl⟩
    | noValue child absent => exact ⟨1, readUpper_noValue child absent, rfl⟩
    | @mark value text writes isMark =>
      have hmark : text = "*" ∨ text = "-1" := isMark
      exact ⟨Multiplicity.many, by rw [readUpper_of_writes writes, if_pos hmark], rfl⟩
    | @number value text n writes denotes fits =>
      refine ⟨n, ?_, rfl⟩
      have hmark : ¬ (text = "*" ∨ text = "-1") := fun h => Text.IsMark.not_denotes h n denotes
      rw [readUpper_of_writes writes, if_neg hmark, elim_eq_ok]
      exact Text.word?_eq_some_iff.mpr ⟨denotes, fits⟩

/-- The fault of an upper bound shows its text without blanks. -/
theorem readUpper_eq_error {f : Fault} : readUpper c name = .error f ↔
    ∃ value text, c.WritesBound "upperValue" value text ∧ ¬ Text.IsMark text ∧
      Text.IsNoWord text ∧ f = .invalidMultiplicity name text := by
  constructor
  · intro h
    rcases c.bound_cases "upperValue" with habsent | ⟨bound, hchild, hvalue⟩ | ⟨value, text, hw⟩
    · rw [readUpper_noBound habsent] at h
      cases h
    · rw [readUpper_noValue hchild hvalue] at h
      cases h
    · rw [readUpper_of_writes hw] at h
      split at h
      next => cases h
      next hmark =>
        obtain ⟨hno, rfl⟩ := elim_eq_error.mp h
        exact ⟨value, text, hw, hmark, Text.word?_eq_none_iff.mp hno, rfl⟩
  · rintro ⟨value, text, hw, hmark, hno, rfl⟩
    have hmark' : ¬ (text = "*" ∨ text = "-1") := hmark
    rw [readUpper_of_writes hw, if_neg hmark', elim_eq_error]
    exact ⟨Text.word?_eq_none_iff.mpr hno, rfl⟩

theorem readMultiplicity_states {m : Multiplicity} : readMultiplicity c name = .ok m ↔
    c.StatesLower m.lower ∧ c.StatesUpper m.upper := by
  simp only [readMultiplicity, outcome_bind, pure, Except.pure, Except.ok.injEq]
  rw [← readLower_eq_ok, ← readUpper_eq_ok]
  constructor
  · rintro ⟨lower, hlower, k, hk, rfl⟩
    exact ⟨hlower, k, hk, rfl⟩
  · rintro ⟨hlower, k, hk, hupper⟩
    refine ⟨m.lower, hlower, k, hk, ?_⟩
    rw [Multiplicity.ofBounds, ← hupper]

/-- The lower bound is read first. -/
theorem readMultiplicity_eq_error {f : Fault} : readMultiplicity c name = .error f ↔
    readLower c name = .error f ∨
      ∃ lower, readLower c name = .ok lower ∧ readUpper c name = .error f := by
  rw [readMultiplicity, outcome_bind_error]
  simp only [outcome_bind_pure_error]

/-- The name under which the bounds of a property are read is that of the property. -/
theorem property_of_propertyType {ix : IdIndex} {d d' : Draft} {type : Handle}
    (h : Draft.propertyType ix d c = .ok (d', type)) :
    Draft.property ix d c = (readMultiplicity c
      (c.name?.getD (Text.lowerFirst (d'.model.element type).name))).map fun m => (d', {
        id := c.id?
        name := c.name?.getD (Text.lowerFirst (d'.model.element type).name)
        visibility := .ofText (c.attr? "visibility")
        multiplicity := m
        aggregation := .ofText (c.attr? "aggregation")
        type := type
        association := none }) := by
  rw [Draft.property, h]
  show (readMultiplicity c _ >>= fun m => _) = _
  cases readMultiplicity c (c.name?.getD (Text.lowerFirst (d'.model.element type).name)) <;> rfl

end Read

/-- How the bounds of a property are read, whatever texts state them. A text is a number when it
denotes one of 32 bits; any other text stops the run, the one of the lower bound first. The fault
has the name of the property. -/
theorem readMultiplicity_exact (c : Node) (name : String) :
    (∀ m, readMultiplicity c name = .ok m ↔ c.StatesLower m.lower ∧ c.StatesUpper m.upper) ∧
    (∀ m, readMultiplicity c name = .ok m → (m.isMany = true ↔ c.StatesMany)) ∧
    (∀ f, readMultiplicity c name = .error f ↔
      (∃ value text, c.WritesBound "lowerValue" value text ∧ Text.IsNoWord text ∧
        f = .invalidMultiplicity name value) ∨
      ∃ lower value text, c.StatesLower lower ∧ c.WritesBound "upperValue" value text ∧
        ¬ Text.IsMark text ∧ Text.IsNoWord text ∧ f = .invalidMultiplicity name text) ∧
    ∀ ix d d' type, Draft.propertyType ix d c = .ok (d', type) →
      name = c.name?.getD (Text.lowerFirst (d'.model.element type).name) →
      (∀ m, (∃ p, Draft.property ix d c = .ok (d', p) ∧ p.name = name ∧ p.multiplicity = m) ↔
        readMultiplicity c name = .ok m) ∧
      ∀ f, Draft.property ix d c = .error f ↔ readMultiplicity c name = .error f := by
  refine ⟨fun m => readMultiplicity_states, ?_, ?_, ?_⟩
  · intro m hm
    obtain ⟨-, hupper⟩ := readMultiplicity_states.mp hm
    rw [← hupper.many_iff, Multiplicity.isMany, decide_eq_true_eq]
  · intro f
    rw [readMultiplicity_eq_error]
    simp only [readLower_eq_error, readLower_eq_ok, readUpper_eq_error, exists_and_left]
  · intro ix d d' type htype hname
    rw [property_of_propertyType htype, ← hname]
    constructor
    · intro m
      cases readMultiplicity c name with
      | error f => simp [Except.map]
      | ok m' => simp [Except.map]
    · intro f
      cases readMultiplicity c name with
      | error f' => simp [Except.map]
      | ok m' => simp [Except.map]

/-- A property without a name, whose upper bound is one too large. -/
def weight : Node := .mk [
  .one "type" (.mk [.text "@_xmi:type" "uml:PrimitiveType", .text "@_href" "types#Integer"]),
  .one "lowerValue" (.mk [.text "@_value" "\n+00000000000007 "]),
  .one "upperValue" (.mk [.text "@_value" " 4294967296"])]

theorem weight_bounds : ∃ d' type, Draft.propertyType .empty {} weight = .ok (d', type) ∧
    "integer" = weight.name?.getD (Text.lowerFirst (d'.model.element type).name) ∧
    weight.StatesLower 7 ∧
    Draft.property .empty {} weight = .error (.invalidMultiplicity "integer" "4294967296") := by
  obtain ⟨-, -, -, hproperty⟩ := readMultiplicity_exact weight "integer"
  have hname : "integer" = weight.name?.getD (Text.lowerFirst "Integer") := by decide +kernel
  have hlower : readLower weight "integer" = .ok 7 := by decide +kernel
  have hfault : readMultiplicity weight "integer" =
      .error (.invalidMultiplicity "integer" "4294967296") := by decide +kernel
  exact ⟨_, _, rfl, hname, readLower_eq_ok.mp hlower,
    ((hproperty .empty {} _ _ rfl hname).2 _).mpr hfault⟩

end ClassGrammar
