import ClassGrammar.Proofs.Outlines.ListedPrimitives
import ClassGrammar.Proofs.Outlines.AttributePlacement
import ClassGrammar.Proofs.Linking.LinkedOutcome

/-! The terminal rules at the end of a grammar. There is one for each primitive type of an
attribute, in the order in which these types are first used. -/
namespace ClassGrammar

namespace Model

/-- The primitive types of the attributes of classes, class by class, and then of the attributes
that are made from association ends, association by association. -/
def primitiveUses (s : Settings) (m : Model) : List Primitive :=
  (m.roots.flatMap (m.ownAttributes s) ++
    (m.roots.flatMap m.ownEnds).map (m.endAttribute s ·.property)).filterMap (·.type.primitive?)

theorem ownAttributes_eq_nil {s : Settings} {m : Model} {h : Handle}
    (hd : (m.element h).declaresInterface = false) : m.ownAttributes s h = [] := by
  unfold Element.declaresInterface at hd
  unfold ownAttributes
  split
  next hf => simp [hf] at hd
  next => rfl

end Model

namespace Outline

variable {s : Settings} {m : Model} {o : Outline}

theorem primitives_addAttribute (o : Outline) (owner : Nat) (a : Attribute) :
    (o.addAttribute owner a).grammar.primitives =
      o.grammar.primitives ++ [a].filterMap (·.type.primitive?) := by
  cases ha : a.type.primitive? <;> simp [addAttribute, ha]

theorem primitives_addAttributes (o : Outline) (owner : Nat) (as : List Attribute) :
    (o.addAttributes owner as).grammar.primitives =
      o.grammar.primitives ++ as.filterMap (·.type.primitive?) := by
  induction as generalizing o with
  | nil => simp [addAttributes]
  | cons a rest ih =>
    rw [addAttributes, ih, primitives_addAttribute, List.append_assoc, ← List.filterMap_append]
    rfl

/-- Adding an element notes the primitive types of its own attributes. -/
theorem primitives_added {h : Handle} {o' : Outline} (ha : Added s m h o o') :
    o'.grammar.primitives =
      o.grammar.primitives ++ (m.ownAttributes s h).filterMap (·.type.primitive?) := by
  cases ha with
  | interface _ _ _ _ => exact primitives_addAttributes _ _ _
  | union noInterface _ _ _ =>
    rw [Model.ownAttributes_eq_nil noInterface]
    exact (List.append_nil _).symm
  | ends noInterface _ =>
    rw [Model.ownAttributes_eq_nil noInterface]
    exact (List.append_nil _).symm

/-- A finished outline has noted each use of a primitive type, in the order of the uses. -/
theorem primitives_of_ofModel (h : ofModel s m = .ok o) :
    o.grammar.primitives = m.primitiveUses s := by
  obtain ⟨o₁, h₁, h₂⟩ := outcome_bind.mp h
  have hforward : o₁.Forward s m m.roots ∧ o₁.grammar.primitives =
      (m.roots.flatMap (m.ownAttributes s)).filterMap (·.type.primitive?) := by
    refine addElements_run (I := fun done o => o.Forward s m done ∧ o.grammar.primitives =
      (done.flatMap (m.ownAttributes s)).filterMap (·.type.primitive?)) ?_ ⟨.start, rfl⟩ h₁
    intro done h o o' ho ha
    refine ⟨ho.1.added ha, ?_⟩
    rw [primitives_added ha, ho.2, List.flatMap_append, List.filterMap_append,
      List.flatMap_singleton]
  have hinserted := insertEnds_run (s := s) (m := m)
    (I := fun es o => o.grammar.primitives = o₁.grammar.primitives ++
      (es.map (m.endAttribute s ·.property)).filterMap (·.type.primitive?))
    (fun es e o owner ho _ => by
      rw [primitives_addAttribute, ho, List.append_assoc, ← List.filterMap_append,
        List.map_append]
      rfl)
    (List.append_nil _).symm h₂
  rw [hinserted, hforward.2, hforward.1.ends, ← List.filterMap_append]
  rfl

end Outline

theorem primitivesOf_unlinked (is : List Interface) :
    primitivesOf (is.map Interface.unlinked) = primitivesOf is := by
  have hattribute : (fun a : Attribute => a.type.primitive?) ∘ Attribute.mapRef .unlinked =
      fun a => a.type.primitive? := by
    funext a
    exact TypeExpr.primitive?_mapRef _ a.type
  unfold primitivesOf
  rw [List.flatMap_map, List.filterMap_flatMap, List.filterMap_flatMap]
  refine List.flatMap_congr fun i _ => ?_
  rw [Interface.unlinked, Interface.mapRefs, List.filterMap_map, hattribute]

namespace Grammar

/-- The lines that end the text of a grammar: the rules for blanks and identifiers, then those of
the listed primitive types. -/
def terminalLines (g : Grammar) : List String :=
  "hidden terminal WS: /\\s+/;" :: "terminal ID: /[_a-zA-Z][\\w_]*/;" ::
    g.primitives.map Primitive.terminal

/-- Whether the primitive types of a grammar are those of its attributes, each once and in the order
of their first uses, and its text ends with their terminal rules. -/
structure EndsWithTerminals (g : Grammar) (uses : List Primitive) : Prop where
  nodup : g.primitives.Nodup
  used : ∀ p, p ∈ g.primitives ↔ ∃ i ∈ g.interfaces, ∃ a ∈ i.attributes, a.type.primitive? = some p
  listed : ∀ p, p ∈ g.primitives ↔ p ∈ uses
  order : g.primitives.Pairwise fun p q => uses.idxOf p < uses.idxOf q
  text : ∃ front, g.render = front ++ "\n" ++ String.join (g.terminalLines.map (· ++ "\n"))

theorem render_terminals (g : Grammar) :
    ∃ front, g.render = front ++ "\n" ++ String.join (g.terminalLines.map (· ++ "\n")) := by
  refine ⟨String.join ((["grammar " ++ g.name, "", "entry " ++ g.entryRule ++ ":",
    "    (elements+=ID)*;"] ++ g.interfaces.flatMap (fun i => "" :: i.lines) ++
    g.unions.flatMap (fun u => ["", u.line])).map (· ++ "\n")), ?_⟩
  simp [render, lines, terminalLines, String.append_assoc]

end Grammar

/-- The grammar of a run has a terminal rule for each primitive type of an attribute and for no
other one, in the order of first use: attributes of classes come before those of association
ends. -/
theorem transform_terminals {s : Settings} {roots : List Node} {g : Grammar}
    (h : transform s roots = .ok g) : ∃ m, Model.ofNodes (.ofRoots roots) roots = .ok m ∧
      g.EndsWithTerminals (m.primitiveUses s) := by
  obtain ⟨m, o, g', hm, ho, hg, rfl⟩ := transform_eq_ok.mp h
  have hunlinked := Grammar.unlinked_linked hg
  have hprimitives : g'.primitives = m.primitiveUses s :=
    (congrArg Grammar.primitives hunlinked).trans (Outline.primitives_of_ofModel ho)
  have hlisted (p : Primitive) : p ∈ g'.dedupePrimitives.primitives ↔ p ∈ m.primitiveUses s := by
    rw [Grammar.dedupePrimitives, Primitive.mem_dedupe, hprimitives]
  have hof : primitivesOf g'.interfaces = primitivesOf o.grammar.interfaces := by
    rw [← primitivesOf_unlinked g'.interfaces, ← primitivesOf_unlinked o.grammar.interfaces]
    exact congrArg (primitivesOf ·.interfaces) hunlinked
  refine ⟨m, hm, ?_, fun p => ?_, hlisted, ?_, g'.dedupePrimitives.render_terminals⟩
  · exact Primitive.nodup_firsts _ _
  · rw [hlisted, ← Outline.primitives_of_ofModel ho, (Outline.noted_of_ofModel ho).mem_iff, ← hof]
    simp only [primitivesOf, List.mem_filterMap, List.mem_flatMap]
    constructor
    · rintro ⟨a, ⟨i, hi, ha⟩, hp⟩
      exact ⟨i, hi, a, ha, hp⟩
    · rintro ⟨i, hi, a, ha, hp⟩
      exact ⟨a, ⟨i, hi, ha⟩, hp⟩
  · rw [← hprimitives]
    exact Primitive.firsts_pairwise _ _

/-- Bookings have a day by way of an association, which comes first. -/
def bookings : List Node := [
  .mk [.text "@_xmi:type" "uml:Association", .text "@_navigableOwnedEnd" "day",
    .many "ownedEnd" [
      .mk [.text "@_xmi:id" "day", .text "@_name" "day", .text "@_type" "date"],
      .mk [.text "@_type" "booking"]]],
  .mk [.text "@_xmi:type" "uml:Class", .text "@_xmi:id" "booking", .text "@_name" "Booking",
    .many "ownedAttribute" [
      .mk [.text "@_name" "seats", .text "@_type" "int"],
      .mk [.text "@_name" "guests", .text "@_type" "str",
        .one "upperValue" (.mk [.text "@_value" "*"])],
      .mk [.text "@_name" "note", .text "@_type" "str",
        .one "lowerValue" (.mk [])]]],
  .mk [.text "@_xmi:type" "uml:DataType", .text "@_xmi:id" "str", .text "@_name" "String"],
  .mk [.text "@_xmi:type" "uml:DataType", .text "@_xmi:id" "int", .text "@_name" "Integer"],
  .mk [.text "@_xmi:type" "uml:PrimitiveType", .text "@_xmi:id" "date", .text "@_name" "Date"]]

def bookingsGrammar : Grammar where
  name := "MyGrammar"
  entryRule := "Model"
  interfaces := [
    ⟨"Booking", [], [
      ⟨"seats", false, .simple (.primitive .bigint)⟩,
      ⟨"guests", false, .array (.simple (.primitive .string))⟩,
      ⟨"note", true, .simple (.primitive .string)⟩,
      ⟨"day", false, .reference (.primitive .date)⟩]⟩]
  primitives := [.bigint, .string, .date]

theorem bookings_terminals : transform {} bookings = .ok bookingsGrammar ∧
    ∃ m, Model.ofNodes (.ofRoots bookings) bookings = .ok m ∧
      bookingsGrammar.EndsWithTerminals (m.primitiveUses {}) := by
  have hok : transform {} bookings = .ok bookingsGrammar := by decide +kernel
  exact ⟨hok, transform_terminals hok⟩

end ClassGrammar
