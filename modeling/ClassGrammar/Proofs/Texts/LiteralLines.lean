import ClassGrammar.Proofs.Texts.GrammarRecovery
import ClassGrammar.Transform
import Mathlib.Data.List.Infix

/-! The literals of a union in its line. Between two literals stands a separator of quotes, blanks
and a bar, and a literal may hold any of these. The literals are told from the line when none of
them holds a separator or begins one; a list for which this fails has a line in common with another
list. -/
namespace ClassGrammar

namespace Union

/-- What stands between the texts of two literals: the last quote of one, and the first of the
other. -/
def separator : List Char := "' | '".toList

/-- The separator less its last quote. -/
def separatorFront : List Char := "' | ".toList

/-- The parts of a text between its separators. Of separators that overlap the first one counts. -/
def parts : List Char → List (List Char)
  | '\'' :: ' ' :: '|' :: ' ' :: '\'' :: rest => [] :: parts rest
  | c :: rest => (parts rest).modifyHead (c :: ·)
  | [] => [[]]

/-- Whether parts can be told from their text: no part holds the separator, and none before another
part ends with the front of the separator, which the quote after it would complete. -/
def Apart (ps : List (List Char)) : Prop :=
  (∀ p ∈ ps, ¬ separator <:+: p) ∧ ∀ p ∈ ps.dropLast, ¬ separatorFront <:+ p

instance (ps : List (List Char)) : Decidable (Apart ps) :=
  inferInstanceAs (Decidable (_ ∧ _))

section Parts

variable {p rest : List Char} {ps : List (List Char)} {c : Char}

theorem parts_ne_nil (cs : List Char) : parts cs ≠ [] := by
  fun_induction parts cs with
  | case1 rest _ => simp
  | case2 c rest _ ih => simpa using ih
  | case3 => simp

theorem parts_cons (h : ¬ separator <+: c :: rest) :
    parts (c :: rest) = (parts rest).modifyHead (c :: ·) := by
  rw [parts]
  rintro tail rfl rfl
  exact h ⟨tail, rfl⟩

theorem prefix_intercalate (p : List Char) (ps : List (List Char)) :
    p <+: separator.intercalate (p :: ps) := by
  cases ps with
  | nil => simp
  | cons q ps =>
    rw [List.intercalate_cons_cons, List.append_assoc]
    exact List.prefix_append _ _

/-- A separator that ends before the one after a part does lies in the part, or its last quote is
the first one of the separator after the part. -/
theorem infix_append_front (h : separator <:+: p ++ separatorFront) :
    separator <:+: p ∨ separatorFront <:+ p := by
  obtain ⟨before, after, h⟩ := h
  rcases List.append_eq_append_iff.mp h with ⟨more, hp, -⟩ | ⟨common, hp, hfront⟩
  · exact .inl ⟨before, more, hp.symm⟩
  rcases common with _ | ⟨a, _ | ⟨b, tail⟩⟩
  · exact .inl ⟨before, [], by simpa using hp⟩
  · obtain rfl : '\'' = a := (List.cons.inj hfront).1
    have hcut : (before ++ separatorFront) ++ ['\''] = p ++ ['\''] := by
      rw [← hp, List.append_assoc]
      rfl
    exact .inr ⟨before, List.append_cancel_right hcut⟩
  · -- The front holds no other quote that could be the last one.
    have hlast : (b :: tail).getLast? = some '\'' := by
      have hend := congrArg List.getLast? hp
      simpa [separator] using hend.symm
    have hquote : '\'' ∈ [' ', '|', ' '] := by
      rw [show [' ', '|', ' '] = (b :: tail) ++ after from (List.cons.inj hfront).2]
      exact List.mem_append_left _ (List.mem_of_getLast? hlast)
    exact absurd hquote (by decide)

theorem parts_of_not_infix (h : ¬ separator <:+: p) : parts p = [p] := by
  induction p with
  | nil => rfl
  | cons c rest ih =>
    rw [parts_cons fun hopens => h hopens.isInfix,
      ih fun hinner => h (hinner.trans (List.suffix_cons c rest).isInfix)]
    rfl

/-- A part is cut off at the separator after it. -/
theorem parts_append (h : ¬ separator <:+: p) (hfront : ¬ separatorFront <:+ p) (rest : List Char) :
    parts (p ++ (separator ++ rest)) = p :: parts rest := by
  induction p with
  | nil => rfl
  | cons c p ih =>
    have hnot : ¬ separator <+: c :: (p ++ (separator ++ rest)) := by
      intro hopens
      have hwhole : (c :: p) ++ separatorFront <+: c :: (p ++ (separator ++ rest)) :=
        ⟨'\'' :: rest, by simp [separator, separatorFront]⟩
      have hshort : separator.length ≤ ((c :: p) ++ separatorFront).length := by
        simp [separator, separatorFront]
      rcases infix_append_front
        (List.prefix_of_prefix_length_le hopens hwhole hshort).isInfix with hin | hend
      · exact h hin
      · exact hfront hend
    rw [List.cons_append, parts_cons hnot,
      ih (fun hinner => h (hinner.trans (List.suffix_cons c p).isInfix))
        fun hend => hfront (hend.trans (List.suffix_cons c p))]
    rfl

/-- Parts that are apart are told from their text. -/
theorem parts_intercalate (h : Apart ps) (hne : ps ≠ []) :
    parts (separator.intercalate ps) = ps := by
  induction ps with
  | nil => exact absurd rfl hne
  | cons p rest ih =>
    obtain ⟨hin, hend⟩ := h
    rw [List.forall_mem_cons] at hin
    cases rest with
    | nil => simpa using parts_of_not_infix hin.1
    | cons q rest =>
      rw [List.dropLast_cons_cons, List.forall_mem_cons] at hend
      rw [List.intercalate_cons_cons, List.append_assoc, parts_append hin.1 hend.1,
        ih ⟨hin.2, hend.2⟩ (List.cons_ne_nil q rest)]

/-- The parts of a text make up the text. -/
theorem intercalate_parts (cs : List Char) : separator.intercalate (parts cs) = cs := by
  fun_induction parts cs with
  | case1 rest ih =>
    obtain ⟨p, ps, hps⟩ := List.exists_cons_of_ne_nil (parts_ne_nil rest)
    rw [hps, List.intercalate_cons_cons, ← hps, ih]
    rfl
  | case2 c rest _ ih =>
    obtain ⟨p, ps, hps⟩ := List.exists_cons_of_ne_nil (parts_ne_nil rest)
    rw [hps] at ih ⊢
    cases ps with
    | nil => simpa using ih
    | cons q ps => simpa using ih
  | case3 => rfl

/-- The parts of a text are apart, as each separator is taken where it comes first. -/
theorem apart_parts (cs : List Char) : Apart (parts cs) := by
  fun_induction parts cs with
  | case1 rest ih =>
    obtain ⟨p, ps, hps⟩ := List.exists_cons_of_ne_nil (parts_ne_nil rest)
    rw [hps] at ih ⊢
    obtain ⟨hin, hend⟩ := ih
    refine ⟨List.forall_mem_cons.mpr ⟨by decide, hin⟩, ?_⟩
    rw [List.dropLast_cons_cons]
    exact List.forall_mem_cons.mpr ⟨by decide, hend⟩
  | case2 c rest hnot ih =>
    have hbegin : ¬ separator <+: c :: rest := by
      rintro ⟨tail, htail⟩
      exact hnot tail (List.cons.inj htail).1.symm (List.cons.inj htail).2.symm
    have htext := intercalate_parts rest
    obtain ⟨p, ps, hps⟩ := List.exists_cons_of_ne_nil (parts_ne_nil rest)
    rw [hps] at ih htext ⊢
    obtain ⟨hin, hend⟩ := ih
    rw [List.forall_mem_cons] at hin
    have hfirst : ¬ separator <:+: c :: p := by
      rw [List.infix_cons_iff]
      rintro (hopens | hinner)
      · have hpart : c :: p <+: c :: rest := by
          rw [← htext]
          exact List.cons_prefix_cons.mpr ⟨rfl, prefix_intercalate p ps⟩
        exact hbegin (hopens.trans hpart)
      · exact hin.1 hinner
    refine ⟨List.forall_mem_cons.mpr ⟨hfirst, hin.2⟩, ?_⟩
    cases ps with
    | nil => simp
    | cons q ps =>
      rw [List.dropLast_cons_cons, List.forall_mem_cons] at hend
      refine List.forall_mem_cons.mpr ⟨fun hfront => ?_, hend.2⟩
      rcases List.suffix_cons_iff.mp hfront with heq | hsuffix
      · -- The quote of the separator after the part would make the text begin with a separator.
        refine hbegin ⟨[' ', '|', ' ', '\''] ++ separator.intercalate (q :: ps), ?_⟩
        rw [← htext, List.intercalate_cons_cons, ← List.cons_append, ← List.cons_append, ← heq]
        rfl
      · exact hend.1 hsuffix
  | case3 => exact ⟨by decide, by decide⟩

end Parts

/-- What the line of a union says before its literals. -/
def opening (name : String) : List Char := "type ".toList ++ (name.toList ++ " = '".toList)

/-- What the line of a union says after its literals. -/
def closing : List Char := "';".toList

/-- Whether the literals of a list can be told from the line of a union. -/
def Separable (literals : List String) : Prop := Apart (literals.map String.toList)

instance (literals : List String) : Decidable (Separable literals) :=
  inferInstanceAs (Decidable (Apart _))

/-- The literals that the line of a union shows. -/
def readLiterals (name line : String) : List String :=
  if opening name <+: line.toList then
    (parts (line.toList.drop (opening name).length).dropLast.dropLast).map String.ofList
  else []

/-- Quoted texts with bars between them are texts with separators between them, in quotes. -/
theorem intercalate_quoted {literals : List String} (h : literals ≠ []) :
    " | ".toList.intercalate (literals.map fun l => (quoted l).toList) =
      '\'' :: (separator.intercalate (literals.map String.toList) ++ ['\'']) := by
  have hquoted (l : String) : (quoted l).toList = '\'' :: (l.toList ++ ['\'']) := by
    simp [show quoted l = "'" ++ l ++ "'" from rfl]
  induction literals with
  | nil => exact absurd rfl h
  | cons l rest ih =>
    cases rest with
    | nil => simp [hquoted]
    | cons l' rest =>
      have htail := ih (List.cons_ne_nil l' rest)
      rw [List.map_cons] at htail
      rw [List.map_cons, List.map_cons, List.intercalate_cons_cons, htail, hquoted]
      simp [separator]

theorem toList_comp_ofList : String.toList ∘ String.ofList = id := by
  funext cs
  simp

theorem toList_line_of_ne_nil (name : String) {literals : List String} (h : literals ≠ []) :
    (line ⟨name, literals⟩).toList =
      opening name ++ (separator.intercalate (literals.map String.toList) ++ closing) := by
  obtain ⟨l, rest, rfl⟩ := List.exists_cons_of_ne_nil h
  have hquoted := intercalate_quoted h
  simp only [line, String.toList_append, String.toList_intercalate, List.map_map,
    Function.comp_def, hquoted]
  simp [opening, closing]

/-- What is read from a line are the parts of the text between its quotes. -/
theorem readLiterals_line (name : String) {literals : List String} (h : literals ≠ []) :
    readLiterals name (line ⟨name, literals⟩) =
      (parts (separator.intercalate (literals.map String.toList))).map String.ofList := by
  rw [readLiterals, toList_line_of_ne_nil name h, if_pos (List.prefix_append _ _),
    List.drop_left]
  simp [closing]

theorem readLiterals_line_nil (name : String) : readLiterals name (line ⟨name, []⟩) = [] := by
  rw [readLiterals, if_neg]
  rintro ⟨rest, hrest⟩
  simp [line, opening] at hrest

theorem separable_readLiterals (name : String) (literals : List String) :
    Separable (readLiterals name (line ⟨name, literals⟩)) := by
  by_cases hnil : literals = []
  · subst hnil
    simp [readLiterals_line_nil, Separable, Apart]
  · rw [readLiterals_line name hnil, Separable, List.map_map, toList_comp_ofList, List.map_id]
    exact apart_parts _

/-- Literals are read back from their line just when they can be told from it. -/
theorem readLiterals_line_eq_iff (name : String) (literals : List String) :
    readLiterals name (line ⟨name, literals⟩) = literals ↔ Separable literals := by
  constructor
  · intro hread
    rw [← hread]
    exact separable_readLiterals name literals
  · intro hseparable
    by_cases hnil : literals = []
    · subst hnil
      exact readLiterals_line_nil name
    · rw [readLiterals_line name hnil, parts_intercalate hseparable (by simpa using hnil)]
      simp

/-- The literals that a line shows have the same line. -/
theorem line_readLiterals (name : String) (literals : List String) :
    line ⟨name, readLiterals name (line ⟨name, literals⟩)⟩ = line ⟨name, literals⟩ := by
  by_cases hnil : literals = []
  · subst hnil
    rw [readLiterals_line_nil]
  · have hparts := parts_ne_nil (separator.intercalate (literals.map String.toList))
    rw [readLiterals_line name hnil, ← String.toList_inj,
      toList_line_of_ne_nil name (by simpa using hparts), toList_line_of_ne_nil name hnil,
      List.map_map, toList_comp_ofList, List.map_id, intercalate_parts]

/-- Literals without quotes can be told from the line. -/
theorem separable_of_unquoted {literals : List String}
    (h : ∀ l ∈ literals, '\'' ∉ l.toList) : Separable literals := by
  have hquote {p : List Char} (hp : p ∈ literals.map String.toList) : '\'' ∉ p := by
    obtain ⟨l, hl, rfl⟩ := List.mem_map.mp hp
    exact h l hl
  refine ⟨fun p hp hinner => ?_, fun p hp hsuffix => ?_⟩
  · exact hquote hp (hinner.subset List.mem_cons_self)
  · exact hquote (List.mem_of_mem_dropLast hp) (hsuffix.subset List.mem_cons_self)

/-- A line stands in the text of the grammar with the same text before it and after it, whatever it
says. -/
theorem render_eq_iff_line_eq (g : Grammar) (before after : List Union) (u u' : Union) :
    { g with unions := before ++ u :: after }.render =
      { g with unions := before ++ u' :: after }.render ↔ u.line = u'.line := by
  rw [← String.toList_inj, ← String.toList_inj, Grammar.toList_render, Grammar.toList_render]
  simp [Grammar.unionBlock, Grammar.terminalLines]

/-- Literals are told from the line of their union, whatever its name, just when no literal holds a
separator and only the last one may end with the front of one. For a list of this kind no other list
of this kind has the line, and for any other list one has; the texts of two grammars that differ in
nothing else differ just when the lines do. Literals without quotes are always told. -/
theorem line_tells_literals (name : String) (literals : List String) :
    (readLiterals name (line ⟨name, literals⟩) = literals ↔ Separable literals) ∧
      (Separable literals ↔ ∀ others, Separable others →
        line ⟨name, others⟩ = line ⟨name, literals⟩ → others = literals) ∧
      (∀ (g : Grammar) (before after : List Union) others,
        Grammar.render { g with unions := before ++ ⟨name, others⟩ :: after } =
            Grammar.render { g with unions := before ++ ⟨name, literals⟩ :: after } ↔
          line ⟨name, others⟩ = line ⟨name, literals⟩) ∧
      ((∀ l ∈ literals, '\'' ∉ l.toList) → Separable literals) := by
  refine ⟨readLiterals_line_eq_iff name literals, ⟨fun h others hothers hline => ?_, fun h => ?_⟩,
    fun g before after others => render_eq_iff_line_eq g before after _ _, separable_of_unquoted⟩
  · rw [← (readLiterals_line_eq_iff name others).mpr hothers, hline,
      (readLiterals_line_eq_iff name literals).mpr h]
  · rw [← h _ (separable_readLiterals name literals) (line_readLiterals name literals)]
    exact separable_readLiterals name literals

/-- Quotes and bars alone do no harm. -/
example : Separable ["it's", "'", "a | b", "' |"] := by decide

/-- An enumeration with the literals. -/
def sizes (literals : List String) : List Node := [
  .mk [.text "@_xmi:type" "uml:Enumeration", .text "@_xmi:id" "size", .text "@_name" "Size",
    .many "ownedLiteral" (literals.map fun l => .mk [.text "@_name" l])]]

def sizesGrammar (literals : List String) : Grammar where
  name := "MyGrammar"
  entryRule := "Model"
  interfaces := []
  unions := [⟨"Size", literals⟩]
  primitives := []

/-- One literal with a separator in it and two literals have the same line. -/
theorem sizes_confused :
    transform {} (sizes ["s' | 'l"]) = .ok (sizesGrammar ["s' | 'l"]) ∧
      transform {} (sizes ["s", "l"]) = .ok (sizesGrammar ["s", "l"]) ∧
      ["s' | 'l"] ≠ ["s", "l"] ∧
      line ⟨"Size", ["s' | 'l"]⟩ = line ⟨"Size", ["s", "l"]⟩ ∧
      (sizesGrammar ["s' | 'l"]).render = (sizesGrammar ["s", "l"]).render := by
  decide +kernel

end Union
end ClassGrammar
