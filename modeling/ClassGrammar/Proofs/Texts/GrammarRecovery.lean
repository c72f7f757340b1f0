import ClassGrammar.Proofs.Texts.TextContent
import ClassGrammar.Proofs.Texts.TerminalRules

/-! Grammars are known from their texts. When the names in a grammar are well formed, each part of
it is told from what follows it in the text, from a name up to a list of interfaces. -/
namespace ClassGrammar

namespace Primitive

theorem isName_name (p : Primitive) : Text.IsName p.name := by
  cases p <;> decide

theorem ofName?_name (p : Primitive) : ofName? p.name = some p := by
  cases p <;> decide

theorem terminal_inj {p p' : Primitive} (h : p.terminal = p'.terminal) : p = p' := by
  revert h
  cases p <;> cases p' <;> decide

theorem newline_not_mem_terminal (p : Primitive) : '\n' ∉ p.terminal.toList := by
  cases p <;> decide

end Primitive

theorem TypeRef.unlinked_of_name {ref ref' : TypeRef} (h : ref.name = ref'.name) :
    ref.unlinked = ref'.unlinked := by
  unfold unlinked
  rw [h]

namespace SimpleType

theorem isName_text {t : SimpleType} (h : t.WellNamed) : Text.IsName t.text := by
  cases t with
  | primitive p => exact p.isName_name
  | named ref => exact h.1

/-- The type that is shown as a text. -/
def ofText (s : String) : SimpleType :=
  match Primitive.ofName? s with
  | some p => primitive p
  | none => named ⟨s, none⟩

theorem content_eq_ofText {t : SimpleType} (h : t.WellNamed) : t.content = ofText t.text := by
  cases t with
  | primitive p => rw [content, text, ofText, Primitive.ofName?_name]
  | named ref => rw [content, text, ofText, h.2, TypeRef.unlinked]

end SimpleType

namespace TypeExpr

/-- The source of a type that is no array is a name, which may have a mark. -/
theorem source_flat {t : TypeExpr} (ht : t.WellNamed) (hflat : t.isArray = false) :
    ∃ (b : Bool) (s : SimpleType), s.WellNamed ∧
      t.source.toList = Text.mark b '@' ++ s.text.toList ∧
      t.content = bif b then reference s.content else simple s.content := by
  match t with
  | simple s => exact ⟨false, s, ht, rfl, rfl⟩
  | reference (.primitive p) => exact ⟨false, .primitive p, trivial, rfl, rfl⟩
  | reference (.named ref) => exact ⟨true, .named ref, ht, String.toList_append, rfl⟩
  | array _ => cases hflat

theorem mem_source_flat {t : TypeExpr} (ht : t.WellNamed) (hflat : t.isArray = false) {c : Char}
    (hc : c ∈ t.source.toList) : c = '@' ∨ Text.continuesName c = true := by
  obtain ⟨b, s, hs, hsource, -⟩ := source_flat ht hflat
  rw [hsource] at hc
  rcases List.mem_append.mp hc with hc | hc
  · cases b
    · cases hc
    · exact .inl (List.mem_singleton.mp hc)
  · exact .inr ((SimpleType.isName_text hs).continues c hc)

theorem newline_not_mem_source {t : TypeExpr} (ht : t.WellNamed) : '\n' ∉ t.source.toList := by
  induction t with
  | simple s => exact fun h => absurd (mem_source_flat ht rfl h) (by decide)
  | reference s => exact fun h => absurd (mem_source_flat ht rfl h) (by decide)
  | array e ih => simpa [source] using ih ht

theorem bracket_mem_source {t : TypeExpr} (ht : t.WellNamed) :
    ']' ∈ t.source.toList ↔ t.isArray = true := by
  cases t with
  | simple s => exact ⟨fun h => absurd (mem_source_flat ht rfl h) (by decide), nofun⟩
  | reference s => exact ⟨fun h => absurd (mem_source_flat ht rfl h) (by decide), nofun⟩
  | array e => simp [source, isArray]

theorem isArray_of_source {t t' : TypeExpr} (ht : t.WellNamed) (ht' : t'.WellNamed)
    (h : t.source = t'.source) : t.isArray = t'.isArray := by
  rw [Bool.eq_iff_iff, ← bracket_mem_source ht, ← bracket_mem_source ht', h]

theorem content_of_source_flat {t t' : TypeExpr} (ht : t.WellNamed) (ht' : t'.WellNamed)
    (hflat : t.isArray = false) (hflat' : t'.isArray = false) (h : t.source = t'.source) :
    t.content = t'.content := by
  obtain ⟨b, s, hs, hsource, hcontent⟩ := source_flat ht hflat
  obtain ⟨b', s', hs', hsource', hcontent'⟩ := source_flat ht' hflat'
  have hunmarked {s : SimpleType} (hs : s.WellNamed) : s.text.toList.head? ≠ some '@' := by
    intro hhead
    exact absurd ((SimpleType.isName_text hs).continues _ (List.mem_of_mem_head? hhead)) (by decide)
  obtain ⟨rfl, htext⟩ := Text.mark_inj (hunmarked hs) (hunmarked hs')
    (hsource.symm.trans ((congrArg String.toList h).trans hsource'))
  rw [hcontent, hcontent', SimpleType.content_eq_ofText hs, SimpleType.content_eq_ofText hs',
    String.toList_inj.mp htext]

theorem content_of_source {t t' : TypeExpr} (ht : t.WellNamed) (ht' : t'.WellNamed)
    (h : t.source = t'.source) : t.content = t'.content := by
  have harray := isArray_of_source ht ht' h
  induction t generalizing t' with
  | simple s => exact content_of_source_flat ht ht' rfl harray.symm h
  | reference s => exact content_of_source_flat ht ht' rfl harray.symm h
  | array e ih =>
    cases t' with
    | simple _ => cases harray
    | reference _ => cases harray
    | array e' =>
      have helement : e.source = e'.source := (String.append_left_inj "[]").mp h
      exact congrArg array (ih ht ht' helement (isArray_of_source ht ht' helement))

end TypeExpr

namespace Attribute

theorem toList_line (a : Attribute) : a.line.toList =
    "    ".toList ++ (a.name.toList ++
      (Text.mark a.isOptional '?' ++ (": ".toList ++ a.type.source.toList))) := by
  unfold line
  cases a.isOptional <;> simp [Text.mark]

theorem line_inj {a a' : Attribute} {rest rest' : List Char} (ha : a.WellNamed)
    (ha' : a'.WellNamed) (h : a.line.toList ++ '\n' :: rest = a'.line.toList ++ '\n' :: rest') :
    a.content = a'.content ∧ rest = rest' := by
  simp only [toList_line, List.append_assoc] at h
  have hstops (b : Bool) (rest : List Char) :
      Text.Stops Text.continuesName (Text.mark b '?' ++ (": ".toList ++ rest)) := by
    cases b <;> exact Text.stops_cons (by decide) _
  obtain ⟨hname, h⟩ := ha.name.append_inj ha'.name (hstops _ _) (hstops _ _)
    (List.append_cancel_left h)
  obtain ⟨hoptional, h⟩ := Text.mark_inj (by simp) (by simp) h
  obtain ⟨hsource, hr⟩ := Text.line_inj (TypeExpr.newline_not_mem_source ha.type)
    (TypeExpr.newline_not_mem_source ha'.type) (List.append_cancel_left h)
  have htype := TypeExpr.content_of_source ha.type ha'.type hsource
  refine ⟨?_, hr⟩
  unfold content
  rw [htype, hname, hoptional]

end Attribute

namespace Interface

/-- What stands in the first line after the name. -/
def extending (i : Interface) : List Char :=
  match i.superTypes with
  | [] => []
  | supers => " extends ".toList ++ ", ".toList.intercalate (supers.map (·.name.toList))

/-- What stands after the opening brace. -/
def body (i : Interface) : List Char :=
  match i.attributes with
  | [] => "\x7d\n".toList
  | attributes => '\n' :: (Text.written (attributes.map Attribute.line) ++ "\x7d\n".toList)

theorem written_lines (i : Interface) : Text.written i.lines =
    "interface ".toList ++ (i.name.toList ++ (i.extending ++ (" \x7b".toList ++ i.body))) := by
  have hheader : i.header.toList = "interface ".toList ++ (i.name.toList ++ i.extending) := by
    unfold header extending
    cases i.superTypes <;> simp [String.toList_intercalate, Function.comp_def]
  unfold lines body
  cases i.attributes <;> simp [hheader]

theorem superTypes_inj {supers supers' : List TypeRef} {rest rest' : List Char}
    (hs : ∀ ref ∈ supers, Text.IsName ref.name) (hs' : ∀ ref ∈ supers', Text.IsName ref.name)
    (hne : supers ≠ []) (hne' : supers' ≠ [])
    (h : ", ".toList.intercalate (supers.map (·.name.toList)) ++ (" \x7b".toList ++ rest) =
      ", ".toList.intercalate (supers'.map (·.name.toList)) ++ (" \x7b".toList ++ rest')) :
    supers.map TypeRef.unlinked = supers'.map TypeRef.unlinked ∧ rest = rest' := by
  have hend (rest : List Char) : Text.Stops Text.continuesName (" \x7b".toList ++ rest) ∧
      ¬ ", ".toList <+: " \x7b".toList ++ rest := by
    refine ⟨Text.stops_cons (by decide) _, ?_⟩
    rintro ⟨tail, htail⟩
    simp at htail
  have htells {ref ref' : TypeRef} {rest rest' : List Char} (hm : Text.IsName ref.name)
      (hm' : Text.IsName ref'.name) (hr : Text.Stops Text.continuesName rest)
      (hr' : Text.Stops Text.continuesName rest')
      (h : ref.name.toList ++ rest = ref'.name.toList ++ rest') :
      ref.unlinked = ref'.unlinked ∧ rest = rest' := by
    obtain ⟨hname, hrest⟩ := hm.append_inj hm' hr hr' h
    exact ⟨TypeRef.unlinked_of_name hname, hrest⟩
  obtain ⟨hnames, hr⟩ := Text.intercalate_inj TypeRef.unlinked (Text.IsName ·.name)
    (Text.Stops Text.continuesName) (fun _ _ _ _ => htells)
    (fun rest => Text.stops_cons (by decide) _) hs hs' hne hne' (hend rest) (hend rest') h
  exact ⟨hnames, List.append_cancel_left hr⟩

theorem extending_inj {i i' : Interface} {rest rest' : List Char} (hi : i.WellNamed)
    (hi' : i'.WellNamed)
    (h : i.extending ++ (" \x7b".toList ++ rest) = i'.extending ++ (" \x7b".toList ++ rest')) :
    i.superTypes.map TypeRef.unlinked = i'.superTypes.map TypeRef.unlinked ∧ rest = rest' := by
  unfold extending at h
  split at h
  next hnil =>
    split at h
    next hnil' => exact ⟨by rw [hnil, hnil'], List.append_cancel_left h⟩
    next => simp at h
  next hne =>
    split at h
    next => simp at h
    next hne' =>
      rw [List.append_assoc, List.append_assoc] at h
      exact superTypes_inj hi.superTypes hi'.superTypes hne hne' (List.append_cancel_left h)

theorem attributes_inj {as as' : List Attribute} {rest rest' : List Char}
    (has : ∀ a ∈ as, a.WellNamed) (has' : ∀ a ∈ as', a.WellNamed)
    (h : Text.written (as.map Attribute.line) ++ ("\x7d\n".toList ++ rest) =
      Text.written (as'.map Attribute.line) ++ ("\x7d\n".toList ++ rest')) :
    as.map Attribute.content = as'.map Attribute.content ∧ rest = rest' := by
  rw [Text.written_map, Text.written_map] at h
  obtain ⟨hcontent, hr⟩ := Text.flatMap_inj Attribute.content Attribute.WellNamed
    (fun rest => rest.head? = some '\x7d')
    (fun _ _ _ _ ha ha' h => Attribute.line_inj ha ha' (by simpa using h))
    (fun _ _ _ => by simp [Attribute.toList_line]) has has' rfl rfl h
  exact ⟨hcontent, List.append_cancel_left hr⟩

theorem body_inj {i i' : Interface} {rest rest' : List Char} (hi : i.WellNamed)
    (hi' : i'.WellNamed) (h : i.body ++ rest = i'.body ++ rest') :
    i.attributes.map Attribute.content = i'.attributes.map Attribute.content ∧ rest = rest' := by
  unfold body at h
  split at h
  next hnil =>
    split at h
    next hnil' => exact ⟨by rw [hnil, hnil'], List.append_cancel_left h⟩
    next => simp at h
  next =>
    split at h
    next => simp at h
    next =>
      rw [List.cons_append, List.cons_append, List.append_assoc, List.append_assoc] at h
      exact attributes_inj hi.attributes hi'.attributes (List.cons.inj h).2

/-- An interface is told from what follows it. -/
theorem lines_inj {i i' : Interface} {rest rest' : List Char} (hi : i.WellNamed)
    (hi' : i'.WellNamed) (h : Text.written i.lines ++ rest = Text.written i'.lines ++ rest') :
    i.content = i'.content ∧ rest = rest' := by
  simp only [written_lines, List.append_assoc] at h
  have hstops (i : Interface) (rest : List Char) :
      Text.Stops Text.continuesName (i.extending ++ (" \x7b".toList ++ rest)) := by
    unfold extending
    split <;> exact Text.stops_cons (by decide) _
  obtain ⟨hname, h⟩ := hi.name.append_inj hi'.name (hstops i _) (hstops i' _)
    (List.append_cancel_left h)
  obtain ⟨hsupers, h⟩ := extending_inj hi hi' h
  obtain ⟨hattributes, hr⟩ := body_inj hi hi' h
  refine ⟨?_, hr⟩
  rw [content, content, hname, hsupers, hattributes]

end Interface

namespace Union

theorem quoted_inj {literal literal' : String} {rest rest' : List Char} (hl : Text.IsName literal)
    (hl' : Text.IsName literal')
    (h : (quoted literal).toList ++ rest = (quoted literal').toList ++ rest') :
    literal = literal' ∧ rest = rest' := by
  have hquoted (literal : String) (rest : List Char) :
      (quoted literal).toList ++ rest = '\'' :: (literal.toList ++ '\'' :: rest) := by
    rw [show quoted literal = "'" ++ literal ++ "'" from rfl]
    simp
  rw [hquoted, hquoted] at h
  obtain ⟨hsame, hr⟩ := hl.append_inj hl' (Text.stops_cons (by decide) _)
    (Text.stops_cons (by decide) _) (List.cons.inj h).2
  exact ⟨hsame, (List.cons.inj hr).2⟩

theorem literals_inj {ls ls' : List String} {rest rest' : List Char}
    (hl : ∀ literal ∈ ls, Text.IsName literal) (hl' : ∀ literal ∈ ls', Text.IsName literal)
    (hne : ls ≠ []) (hne' : ls' ≠ [])
    (h : " | ".toList.intercalate (ls.map fun l => (quoted l).toList) ++ (";\n".toList ++ rest) =
      " | ".toList.intercalate (ls'.map fun l => (quoted l).toList) ++ (";\n".toList ++ rest')) :
    ls = ls' ∧ rest = rest' := by
  have hend (rest : List Char) : True ∧ ¬ " | ".toList <+: ";\n".toList ++ rest := by
    refine ⟨trivial, ?_⟩
    rintro ⟨tail, htail⟩
    simp at htail
  obtain ⟨hsame, hr⟩ := Text.intercalate_inj id Text.IsName (fun _ => True)
    (fun _ _ _ _ hl hl' _ _ h => quoted_inj hl hl' h) (fun _ => trivial)
    hl hl' hne hne' (hend rest) (hend rest') h
  exact ⟨by simpa using hsame, List.append_cancel_left hr⟩

/-- The last part of the line, after the name. -/
def alternatives (u : Union) : List Char :=
  match u.literals with
  | [] => " has no literals\n".toList
  | literals =>
    " = ".toList ++ (" | ".toList.intercalate (literals.map fun l => (quoted l).toList) ++
      ";\n".toList)

theorem toList_line (u : Union) : u.line.toList ++ ['\n'] =
    (if u.literals = [] then "// enumeration " else "type ").toList ++
      (u.name.toList ++ u.alternatives) := by
  unfold line alternatives
  cases u.literals <;> simp [String.toList_intercalate, Function.comp_def]

theorem alternatives_inj {u u' : Union} {rest rest' : List Char} (hu : u.WellNamed)
    (hu' : u'.WellNamed) (h : u.alternatives ++ rest = u'.alternatives ++ rest') :
    u.literals = u'.literals ∧ rest = rest' := by
  unfold alternatives at h
  split at h
  next hnil =>
    split at h
    next hnil' => exact ⟨hnil.trans hnil'.symm, List.append_cancel_left h⟩
    next => simp at h
  next hne =>
    split at h
    next => simp at h
    next hne' =>
      simp only [List.append_assoc] at h
      exact literals_inj hu.literals hu'.literals hne hne' (List.append_cancel_left h)

/-- The line of a union is told from what follows it. -/
theorem line_inj {u u' : Union} {rest rest' : List Char} (hu : u.WellNamed) (hu' : u'.WellNamed)
    (h : u.line.toList ++ '\n' :: rest = u'.line.toList ++ '\n' :: rest') :
    u = u' ∧ rest = rest' := by
  have hline (u : Union) (rest : List Char) : u.line.toList ++ '\n' :: rest =
      (if u.literals = [] then "// enumeration " else "type ").toList ++
        (u.name.toList ++ (u.alternatives ++ rest)) := by
    rw [← List.singleton_append, ← List.append_assoc, toList_line]
    simp only [List.append_assoc]
  have hstops (u : Union) (rest : List Char) :
      Text.Stops Text.continuesName (u.alternatives ++ rest) := by
    unfold alternatives
    split <;> exact Text.stops_cons (by decide) _
  rw [hline, hline] at h
  have hkeyword : (if u.literals = [] then "// enumeration " else "type ") =
      if u'.literals = [] then "// enumeration " else "type " := by
    revert h
    split <;> split <;> simp
  rw [hkeyword] at h
  obtain ⟨hname, h⟩ := hu.name.append_inj hu'.name (hstops u rest) (hstops u' rest')
    (List.append_cancel_left h)
  obtain ⟨hliterals, hr⟩ := alternatives_inj hu hu' h
  refine ⟨?_, hr⟩
  cases u
  cases u'
  exact congrArg₂ mk hname hliterals

end Union

namespace Grammar

/-- The characters of the block of a union. -/
def unionBlock (u : Union) : List Char := '\n' :: (u.line.toList ++ ['\n'])

/-- The characters of the block of an interface. -/
def interfaceBlock (i : Interface) : List Char := '\n' :: Text.written i.lines

theorem toList_render (g : Grammar) : g.render.toList =
    "grammar ".toList ++ (g.name.toList ++ ("\n\nentry ".toList ++ (g.entryRule.toList ++
      (":\n    (elements+=ID)*;\n".toList ++ (g.interfaces.flatMap interfaceBlock ++
        (g.unions.flatMap unionBlock ++ '\n' :: Text.written g.terminalLines)))))) := by
  have hinterfaces : interfaceBlock = fun i => Text.written ("" :: i.lines) := by
    funext i
    simp [interfaceBlock]
  have hunions : unionBlock = fun u => Text.written ["", u.line] := by
    funext u
    simp [unionBlock]
  rw [render, Text.toList_join_lines, lines, hinterfaces, hunions, ← Text.written_flatMap,
    ← Text.written_flatMap]
  simp [terminalLines]

/-- A block is known by its first letter. -/
theorem letter_interfaceBlock (i : Interface) (rest : List Char) :
    (interfaceBlock i ++ rest)[1]? = some 'i' := by
  simp [interfaceBlock, Interface.written_lines]

theorem letter_unionBlock (u : Union) (rest : List Char) :
    (unionBlock u ++ rest)[1]? = some '/' ∨ (unionBlock u ++ rest)[1]? = some 't' := by
  cases hl : u.literals <;> simp [unionBlock, Union.toList_line, hl]

theorem letter_unions (us : List Union) (rest : List Char) (hrest : rest[1]? = some 'h') :
    (us.flatMap unionBlock ++ rest)[1]? ≠ some 'i' := by
  cases us with
  | nil => simp [hrest]
  | cons u us =>
    rw [List.flatMap_cons, List.append_assoc]
    rcases letter_unionBlock u (us.flatMap unionBlock ++ rest) with h | h <;> simp [h]

theorem interfaces_inj {is is' : List Interface} {rest rest' : List Char}
    (hi : ∀ i ∈ is, i.WellNamed) (hi' : ∀ i ∈ is', i.WellNamed)
    (hrest : rest[1]? ≠ some 'i') (hrest' : rest'[1]? ≠ some 'i')
    (h : is.flatMap interfaceBlock ++ rest = is'.flatMap interfaceBlock ++ rest') :
    is.map Interface.content = is'.map Interface.content ∧ rest = rest' :=
  Text.flatMap_inj Interface.content Interface.WellNamed (fun rest => rest[1]? ≠ some 'i')
    (fun _ _ _ _ hi hi' h => Interface.lines_inj hi hi' (List.cons.inj h).2)
    (fun i rest _ hend => hend (letter_interfaceBlock i rest)) hi hi' hrest hrest' h

theorem unions_inj {us us' : List Union} {rest rest' : List Char}
    (hu : ∀ u ∈ us, u.WellNamed) (hu' : ∀ u ∈ us', u.WellNamed)
    (hrest : rest[1]? = some 'h') (hrest' : rest'[1]? = some 'h')
    (h : us.flatMap unionBlock ++ rest = us'.flatMap unionBlock ++ rest') :
    us = us' ∧ rest = rest' := by
  have hend (u : Union) (rest : List Char) : (unionBlock u ++ rest)[1]? ≠ some 'h' := by
    rcases letter_unionBlock u rest with h | h <;> simp [h]
  obtain ⟨hsame, hr⟩ := Text.flatMap_inj id Union.WellNamed (fun rest => rest[1]? = some 'h')
    (fun _ _ _ _ hu hu' h => Union.line_inj hu hu' (by simpa [unionBlock] using h))
    (fun u rest _ => hend u rest) hu hu' hrest hrest' h
  exact ⟨by simpa using hsame, hr⟩

theorem terminalLines_inj {g g' : Grammar}
    (h : Text.written g.terminalLines = Text.written g'.terminalLines) :
    g.primitives = g'.primitives := by
  have htells {p p' : Primitive} {rest rest' : List Char}
      (h : (p.terminal.toList ++ ['\n']) ++ rest = (p'.terminal.toList ++ ['\n']) ++ rest') :
      p = p' ∧ rest = rest' := by
    obtain ⟨hline, hr⟩ := Text.line_inj p.newline_not_mem_terminal p'.newline_not_mem_terminal
      (by simpa using h)
    exact ⟨Primitive.terminal_inj hline, hr⟩
  have hrules : Text.written (g.primitives.map Primitive.terminal) =
      Text.written (g'.primitives.map Primitive.terminal) := by
    simpa only [terminalLines, Text.written_cons, List.append_cancel_left_eq, List.cons.injEq,
      true_and] using h
  rw [Text.written_map, Text.written_map] at hrules
  have hsame := Text.flatMap_inj id (fun _ => True) (· = []) (fun _ _ _ _ _ _ => htells)
    (fun _ _ _ => by simp) (fun _ _ => trivial) (fun _ _ => trivial) rfl rfl
    (congrArg (· ++ []) hrules)
  simpa using hsame.1

/-- The text of a grammar with well-formed names tells all of it but the targets of references, and
whether primitive types are referred to. -/
theorem render_eq_iff {g g' : Grammar} (hg : g.WellNamed) (hg' : g'.WellNamed) :
    g.render = g'.render ↔ g.content = g'.content := by
  refine ⟨fun h => ?_, fun h => by rw [← render_content g, h, render_content]⟩
  have h := congrArg String.toList h
  rw [toList_render, toList_render] at h
  have hentry (rest : List Char) : Text.Stops Text.continuesName ("\n\nentry ".toList ++ rest) :=
    Text.stops_cons (by decide) _
  have hrules (rest : List Char) :
      Text.Stops Text.continuesName (":\n    (elements+=ID)*;\n".toList ++ rest) :=
    Text.stops_cons (by decide) _
  obtain ⟨hname, h⟩ := hg.name.append_inj hg'.name (hentry _) (hentry _)
    (List.append_cancel_left h)
  obtain ⟨hentryRule, h⟩ := hg.entryRule.append_inj hg'.entryRule (hrules _) (hrules _)
    (List.append_cancel_left h)
  have hletter (g : Grammar) : ('\n' :: Text.written g.terminalLines)[1]? = some 'h' := by
    simp [terminalLines]
  obtain ⟨hinterfaces, h⟩ := interfaces_inj hg.interfaces hg'.interfaces
    (letter_unions _ _ (hletter g)) (letter_unions _ _ (hletter g')) (List.append_cancel_left h)
  obtain ⟨hunions, h⟩ := unions_inj hg.unions hg'.unions (hletter g) (hletter g') h
  have hprimitives := terminalLines_inj (List.cons.inj h).2
  rw [content, content, hname, hentryRule, hinterfaces, hunions, hprimitives]

/-- A grammar of cars that are sold on a date. -/
def showroom (vehicle : Option Target) (sold : TypeExpr) : Grammar where
  name := "Showroom"
  entryRule := "Model"
  interfaces := [
    ⟨"Car", [⟨"Vehicle", vehicle⟩], [
      ⟨"colours", true, .array (.array (.simple (.named ⟨"Colour", none⟩)))⟩,
      ⟨"previous", false, .reference (.named ⟨"Car", none⟩)⟩,
      ⟨"sold", false, sold⟩]⟩,
    ⟨"Vehicle", [], []⟩]
  unions := [⟨"Colour", ["red", "dark_blue"]⟩, ⟨"Gear", []⟩]
  primitives := [.date]

theorem showroom_read :
    (showroom none (.reference (.primitive .date))).WellNamed ∧
    (showroom (some (.interface 1)) (.simple (.primitive .date))).WellNamed ∧
    (showroom none (.array (.simple (.primitive .date)))).WellNamed ∧
    (showroom none (.reference (.primitive .date))).render =
      (showroom (some (.interface 1)) (.simple (.primitive .date))).render ∧
    (showroom none (.array (.simple (.primitive .date)))).render ≠
      (showroom none (.reference (.primitive .date))).render := by
  have hreferred : (showroom none (.reference (.primitive .date))).WellNamed := by decide
  have hlinked : (showroom (some (.interface 1)) (.simple (.primitive .date))).WellNamed := by
    decide
  have hmany : (showroom none (.array (.simple (.primitive .date)))).WellNamed := by decide
  refine ⟨hreferred, hlinked, hmany, (render_eq_iff hreferred hlinked).mpr (by decide), fun h => ?_⟩
  exact absurd ((render_eq_iff hmany hreferred).mp h) (by decide)

end Grammar
end ClassGrammar
