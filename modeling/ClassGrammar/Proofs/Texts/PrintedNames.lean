import ClassGrammar.Proofs.Linking.RunsLinkAll
import Mathlib.Data.List.Infix

/-! Which of the type names in the text of a grammar are declared in the same text. -/
namespace ClassGrammar

/-- Whether a line stands in a text, from the start of a line up to a line feed. -/
def Text.HasLine (text line : String) : Prop :=
  ∃ before after, text = before ++ line ++ "\n" ++ after ∧
    (before = "" ∨ ∃ front, before = front ++ "\n")

theorem Text.HasLine.contained {text line : String} (h : Text.HasLine text line) :
    line.toList <:+: text.toList := by
  obtain ⟨before, after, rfl, -⟩ := h
  exact ⟨before.toList, ("\n" ++ after).toList, by simp⟩

/-- The text of some lines has each of them. -/
theorem Text.hasLine_join {lines : List String} {line : String} (h : line ∈ lines) :
    Text.HasLine (String.join (lines.map (· ++ "\n"))) line := by
  obtain ⟨first, rest, rfl⟩ := List.append_of_mem h
  refine ⟨String.join (first.map (· ++ "\n")), String.join (rest.map (· ++ "\n")), ?_, ?_⟩
  · simp [String.append_assoc]
  · rcases List.eq_nil_or_concat first with rfl | ⟨front, last, rfl⟩
    · exact .inl rfl
    · exact .inr ⟨String.join (front.map (· ++ "\n")) ++ last, by simp [String.append_assoc]⟩

/-- The lines that declare a type: the first line of an interface, or a line of alternatives. -/
inductive DeclaresType (name : String) : String → Prop
  | plain {brace : String} (h : brace = " \x7b" ∨ brace = " \x7b\x7d") :
      DeclaresType name ("interface " ++ name ++ brace)
  | extending (supers : String) {brace : String} (h : brace = " \x7b" ∨ brace = " \x7b\x7d") :
      DeclaresType name ("interface " ++ name ++ " extends " ++ supers ++ brace)
  | union (alternatives : String) :
      DeclaresType name ("type " ++ name ++ " = " ++ alternatives ++ ";")

theorem DeclaresType.begins {name line : String} (h : DeclaresType name line) :
    ("interface " ++ name).toList <+: line.toList ∨ ("type " ++ name).toList <+: line.toList := by
  cases h with
  | @plain brace h => exact .inl ⟨brace.toList, by simp⟩
  | @extending supers brace h => exact .inl ⟨(" extends " ++ supers ++ brace).toList, by simp⟩
  | union alternatives => exact .inr ⟨(" = " ++ alternatives ++ ";").toList, by simp⟩

namespace Interface

/-- The first line of an interface. -/
def opening (i : Interface) : String :=
  i.header ++ if i.attributes = [] then " \x7b\x7d" else " \x7b"

theorem opening_mem_lines (i : Interface) : i.opening ∈ i.lines := by
  unfold opening lines
  cases i.attributes <;> simp

theorem line_mem_lines {i : Interface} {a : Attribute} (ha : a ∈ i.attributes) :
    a.line ∈ i.lines := by
  unfold lines
  cases has : i.attributes with
  | nil => simp [has] at ha
  | cons b rest =>
    have hmem : a.line ∈ i.attributes.map Attribute.line := List.mem_map_of_mem ha
    rw [has] at hmem
    exact List.mem_cons_of_mem _ (List.mem_append_left _ hmem)

theorem opening_declares (i : Interface) : DeclaresType i.name i.opening := by
  have hbrace : (if i.attributes = [] then " \x7b\x7d" else " \x7b") = " \x7b" ∨
      (if i.attributes = [] then " \x7b\x7d" else " \x7b") = " \x7b\x7d" := by
    split <;> simp
  unfold opening header
  cases i.superTypes with
  | nil => simpa using DeclaresType.plain hbrace
  | cons ref rest =>
    have h : DeclaresType i.name _ :=
      .extending (", ".intercalate ((ref :: rest).map (·.name))) hbrace
    simpa only [String.append_assoc] using h

end Interface

theorem Union.line_declares {u : Union} (h : u.literals ≠ []) : DeclaresType u.name u.line := by
  unfold line
  cases hl : u.literals with
  | nil => exact absurd hl h
  | cons literal rest => exact .union _

/-- The text of some pairs of brackets. -/
def brackets (n : Nat) : String := String.join (List.replicate n "[]")

/-- The name of a type stands in its source between a mark and brackets. -/
theorem TypeExpr.source_of_typeRef? {t : TypeExpr} {ref : TypeRef} (h : t.typeRef? = some ref) :
    ∃ mark n, (mark = "" ∨ mark = "@") ∧ t.source = mark ++ ref.name ++ brackets n := by
  induction t with
  | simple s =>
    cases s <;> cases h
    exact ⟨"", 0, .inl rfl, by simp [source, SimpleType.text, brackets]⟩
  | reference s =>
    cases s <;> cases h
    exact ⟨"@", 0, .inr rfl, by simp [source, brackets]⟩
  | array e ih =>
    obtain ⟨mark, n, hm, hs⟩ := ih h
    have hn : brackets (n + 1) = brackets n ++ "[]" := by
      rw [brackets, List.replicate_succ', brackets]
      simp
    exact ⟨mark, n + 1, hm, by rw [source, hs, hn, String.append_assoc]⟩

namespace Grammar

/-- Whether the text of a grammar declares a type. -/
def DeclaresInText (g : Grammar) (name : String) : Prop :=
  ∃ line, DeclaresType name line ∧ Text.HasLine g.render line

section Lines

variable {g : Grammar} {i : Interface}

theorem hasLine_of_mem {line : String} (h : line ∈ g.lines) : Text.HasLine g.render line :=
  Text.hasLine_join h

theorem hasLine_of_interface {line : String} (hi : i ∈ g.interfaces) (h : line ∈ i.lines) :
    Text.HasLine g.render line := by
  have hblock : line ∈ g.interfaces.flatMap fun i => "" :: i.lines :=
    List.mem_flatMap.mpr ⟨i, hi, List.mem_cons_of_mem _ h⟩
  apply hasLine_of_mem
  unfold lines
  simp only [List.mem_append]
  exact .inl (.inl (.inl (.inr hblock)))

theorem hasLine_of_union {u : Union} (hu : u ∈ g.unions) : Text.HasLine g.render u.line := by
  have hblock : u.line ∈ g.unions.flatMap fun u => ["", u.line] :=
    List.mem_flatMap.mpr ⟨u, hu, by simp⟩
  apply hasLine_of_mem
  unfold lines
  simp only [List.mem_append]
  exact .inl (.inl (.inr hblock))

theorem LinksInterface.declaresInText {ref : TypeRef} (h : g.LinksInterface ref) :
    g.DeclaresInText ref.name := by
  obtain ⟨k, i, -, hi, hn⟩ := h
  exact ⟨i.opening, hn ▸ i.opening_declares,
    hasLine_of_interface (List.mem_of_getElem? hi) i.opening_mem_lines⟩

/-- A union without literals is the one kind of declaration that leaves no line of its own. -/
theorem LinksUnion.declaresInText {ref : TypeRef} (h : g.LinksUnion ref) :
    g.DeclaresInText ref.name ∨ ∃ u ∈ g.unions, u.name = ref.name ∧ u.literals = [] ∧
      Text.HasLine g.render ("// enumeration " ++ ref.name ++ " has no literals") := by
  obtain ⟨⟨k, u, -, hu, hn⟩, -⟩ := h
  have hmem := List.mem_of_getElem? hu
  have hline := hasLine_of_union hmem
  by_cases hl : u.literals = []
  · have hremark : u.line = "// enumeration " ++ ref.name ++ " has no literals" := by
      simp only [Union.line, hl, hn]
    exact .inr ⟨u, hmem, hn, hl, hremark ▸ hline⟩
  · exact .inl ⟨u.line, hn ▸ Union.line_declares hl, hline⟩

end Lines

/-- A grammar whose text declares the type names that it prints. The first line of an interface
shows the super types and the line of an attribute its type. -/
structure TextClosed (g : Grammar) : Prop where
  superTypes : ∀ i ∈ g.interfaces, ∀ ref ∈ i.superTypes, Text.HasLine g.render i.opening ∧
    g.DeclaresInText ref.name
  types : ∀ i ∈ g.interfaces, ∀ a ∈ i.attributes, ∀ ref, a.type.typeRef? = some ref →
    (∃ mark n, (mark = "" ∨ mark = "@") ∧ Text.HasLine g.render ("    " ++ a.name ++
      (if a.isOptional then "?" else "") ++ ": " ++ (mark ++ ref.name ++ brackets n))) ∧
    (g.DeclaresInText ref.name ∨ ∃ u ∈ g.unions, u.name = ref.name ∧ u.literals = [] ∧
      Text.HasLine g.render ("// enumeration " ++ ref.name ++ " has no literals"))

theorem Linked.textClosed {g : Grammar} (h : g.Linked) : g.TextClosed where
  superTypes i hi ref href :=
    ⟨hasLine_of_interface hi i.opening_mem_lines, (h.superTypes i hi ref href).declaresInText⟩
  types i hi a ha ref href := by
    constructor
    · obtain ⟨mark, n, hm, hs⟩ := TypeExpr.source_of_typeRef? href
      have hline := hasLine_of_interface hi (Interface.line_mem_lines ha)
      rw [Attribute.line, hs] at hline
      exact ⟨mark, n, hm, hline⟩
    · rcases h.types i hi a ha ref href with hinterface | hunion
      · exact .inl hinterface.declaresInText
      · exact hunion.declaresInText

end Grammar

/-- The text of a grammar that a run produces declares every type name in it, but for the names of
unions without literals, which have a remark instead. -/
theorem transform_textClosed {s : Settings} {roots : List Node} {g : Grammar}
    (h : transform s roots = .ok g) : g.TextClosed := by
  obtain ⟨m, o, g', -, ho, hg, rfl⟩ := transform_eq_ok.mp h
  have hall slot := ((Outline.recorded_of_ofModel ho).cells slot).mpr
  have hl : g'.Linked := (Grammar.links_of_linked hg).linked hall
  exact Grammar.Linked.textClosed ⟨hl.superTypes, hl.types⟩

theorem machine_textClosed :
    transform {} machine = .ok machineGrammar ∧ machineGrammar.TextClosed :=
  ⟨transform_machine, transform_textClosed transform_machine⟩

/-- Tasks have a kind, of which there are none yet. -/
def tasks : List Node := [
  .mk [.text "@_xmi:type" "uml:Class", .text "@_xmi:id" "task", .text "@_name" "Task",
    .one "ownedAttribute" (.mk [.text "@_name" "kind", .text "@_type" "kind"])],
  .mk [.text "@_xmi:type" "uml:Enumeration", .text "@_xmi:id" "kind", .text "@_name" "Kind"]]

def tasksGrammar : Grammar where
  name := "MyGrammar"
  entryRule := "Model"
  interfaces := [⟨"Task", [],
    [⟨"kind", false, .simple (.named ⟨"Kind", some (.union 0)⟩)⟩]⟩]
  unions := [⟨"Kind", []⟩]

/-- The text shows the type of an attribute that it does not declare. -/
theorem kind_undeclared : transform {} tasks = .ok tasksGrammar ∧
    Text.HasLine tasksGrammar.render "    kind: Kind" ∧ ¬ tasksGrammar.DeclaresInText "Kind" := by
  refine ⟨by decide +kernel, Grammar.hasLine_of_mem (by decide +kernel), ?_⟩
  rintro ⟨line, hd, hl⟩
  rcases hd.begins with hb | hb
  · have habsent : ¬ ("interface " ++ "Kind").toList <:+: tasksGrammar.render.toList := by
      decide +kernel
    exact habsent (hb.isInfix.trans hl.contained)
  · have habsent : ¬ ("type " ++ "Kind").toList <:+: tasksGrammar.render.toList := by
      decide +kernel
    exact habsent (hb.isInfix.trans hl.contained)

end ClassGrammar
