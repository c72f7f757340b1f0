import Mathlib.Data.List.Basic

/-! Texts that are put together from parts, and when the parts can be told again. A name is told
from what follows it by the first character that no name has; a list of parts is told from its text
when each part is. -/
namespace ClassGrammar.Text

def startsName (c : Char) : Bool := c.isAlpha || c == '_'

def continuesName (c : Char) : Bool := c.isAlphanum || c == '_'

/-- Whether a text is a letter or an underscore, followed by letters, digits and underscores. -/
def IsName (s : String) : Prop :=
  match s.toList with
  | [] => False
  | c :: cs => startsName c = true ∧ cs.all continuesName = true

instance decidableIsName (s : String) : Decidable (IsName s) := by
  unfold IsName
  split <;> infer_instance

theorem continuesName_of_startsName {c : Char} (h : startsName c = true) :
    continuesName c = true := by
  unfold startsName at h
  unfold continuesName Char.isAlphanum
  rcases Bool.or_eq_true .. ▸ h with h | h <;> simp [h]

theorem IsName.continues {s : String} (h : IsName s) : ∀ c ∈ s.toList, continuesName c = true := by
  unfold IsName at h
  split at h
  · exact h.elim
  next c cs hs =>
    rw [hs, List.forall_mem_cons]
    exact ⟨continuesName_of_startsName h.1, List.all_eq_true.mp h.2⟩

/-- Whether a text goes on with no character of a class. -/
def Stops (p : Char → Bool) (rest : List Char) : Prop := ∀ c ∈ rest.head?, p c = false

theorem stops_cons {p : Char → Bool} {c : Char} (h : p c = false) (rest : List Char) :
    Stops p (c :: rest) := by
  simpa [Stops] using h

/-- A run of characters of a class is told from what follows it. -/
theorem run_inj {p : Char → Bool} {run run' rest rest' : List Char} (hrun : ∀ c ∈ run, p c = true)
    (hrun' : ∀ c ∈ run', p c = true) (hrest : Stops p rest) (hrest' : Stops p rest')
    (h : run ++ rest = run' ++ rest') : run = run' ∧ rest = rest' := by
  have hall {run rest : List Char} (hrun : ∀ c ∈ run, p c = true) (hrest : Stops p rest) :
      (run ++ rest).takeWhile p = run := by
    have hnone : rest.takeWhile p = [] := by
      cases rest with
      | nil => rfl
      | cons c cs => simp [hrest c rfl]
    rw [List.takeWhile_append_of_pos hrun, hnone, List.append_nil]
  have hsame : run = run' := by rw [← hall hrun hrest, ← hall hrun' hrest', h]
  subst hsame
  exact ⟨rfl, List.append_cancel_left h⟩

/-- A name is told from what follows it. -/
theorem IsName.append_inj {s s' : String} (hs : IsName s) (hs' : IsName s') {rest rest' : List Char}
    (hrest : Stops continuesName rest) (hrest' : Stops continuesName rest')
    (h : s.toList ++ rest = s'.toList ++ rest') : s = s' ∧ rest = rest' := by
  obtain ⟨hsame, hr⟩ := run_inj hs.continues hs'.continues hrest hrest' h
  exact ⟨String.toList_inj.mp hsame, hr⟩

/-- A character that may be left out. -/
def mark (isMarked : Bool) (c : Char) : List Char := if isMarked then [c] else []

/-- A mark is told from its absence when the text cannot go on with the same character. -/
theorem mark_inj {c : Char} {b b' : Bool} {rest rest' : List Char} (hrest : rest.head? ≠ some c)
    (hrest' : rest'.head? ≠ some c) (h : mark b c ++ rest = mark b' c ++ rest') :
    b = b' ∧ rest = rest' := by
  cases b <;> cases b'
  · exact ⟨rfl, h⟩
  · exact absurd (congrArg List.head? h) hrest
  · exact absurd (congrArg List.head? h).symm hrest'
  · exact ⟨rfl, (List.cons.inj h).2⟩

/-- A line is told from what follows it. -/
theorem line_inj {line line' : String} {rest rest' : List Char} (hl : '\n' ∉ line.toList)
    (hl' : '\n' ∉ line'.toList) (h : line.toList ++ '\n' :: rest = line'.toList ++ '\n' :: rest') :
    line = line' ∧ rest = rest' := by
  have hinside {line : String} (hl : '\n' ∉ line.toList) :
      ∀ c ∈ line.toList, (c != '\n') = true := by
    intro c hc
    simpa using ne_of_mem_of_not_mem hc hl
  obtain ⟨hsame, hr⟩ := run_inj (hinside hl) (hinside hl') (stops_cons (by simp) rest)
    (stops_cons (by simp) rest') h
  exact ⟨String.toList_inj.mp hsame, (List.cons.inj hr).2⟩

/-- The characters of some lines, each with a line feed at its end. -/
def written (lines : List String) : List Char := lines.flatMap fun line => line.toList ++ ['\n']

@[simp] theorem written_nil : written [] = [] := rfl

@[simp] theorem written_cons (line : String) (lines : List String) :
    written (line :: lines) = line.toList ++ '\n' :: written lines := by
  simp [written]

@[simp] theorem written_append (lines lines' : List String) :
    written (lines ++ lines') = written lines ++ written lines' :=
  List.flatMap_append

theorem written_map {α : Type} (f : α → String) (l : List α) :
    written (l.map f) = l.flatMap fun a => (f a).toList ++ ['\n'] :=
  List.flatMap_map f _ l

theorem written_flatMap {α : Type} (f : α → List String) (l : List α) :
    written (l.flatMap f) = l.flatMap fun a => written (f a) :=
  List.flatMap_assoc

theorem toList_join_lines (lines : List String) :
    (String.join (lines.map (· ++ "\n"))).toList = written lines := by
  induction lines with
  | nil => rfl
  | cons line rest ih => simp [ih]

section Lists

variable {α β : Type} {form : α → List Char} (view : α → β) (Member : α → Prop)

/-- A list of parts is told from its text when each part is told from whatever follows it, and no
part can be taken for the end of the list. -/
theorem flatMap_inj (End : List Char → Prop)
    (tells : ∀ ⦃a a' rest rest'⦄, Member a → Member a' → form a ++ rest = form a' ++ rest' →
      view a = view a' ∧ rest = rest')
    (ends : ∀ ⦃a⦄ rest, Member a → ¬ End (form a ++ rest)) {l l' : List α} {rest rest' : List Char}
    (hl : ∀ a ∈ l, Member a) (hl' : ∀ a ∈ l', Member a) (hrest : End rest) (hrest' : End rest')
    (h : l.flatMap form ++ rest = l'.flatMap form ++ rest') :
    l.map view = l'.map view ∧ rest = rest' := by
  induction l generalizing l' with
  | nil =>
    cases l' with
    | nil => exact ⟨rfl, h⟩
    | cons a' as' =>
      rw [List.flatMap_nil, List.nil_append, List.flatMap_cons, List.append_assoc] at h
      exact absurd (h ▸ hrest) (ends _ (hl' a' List.mem_cons_self))
  | cons a as ih =>
    cases l' with
    | nil =>
      rw [List.flatMap_nil, List.nil_append, List.flatMap_cons, List.append_assoc] at h
      exact absurd (h ▸ hrest') (ends _ (hl a List.mem_cons_self))
    | cons a' as' =>
      rw [List.flatMap_cons, List.flatMap_cons, List.append_assoc, List.append_assoc] at h
      rw [List.forall_mem_cons] at hl hl'
      obtain ⟨hview, htail⟩ := tells hl.1 hl'.1 h
      obtain ⟨hviews, hr⟩ := ih hl.2 hl'.2 htail
      exact ⟨by rw [List.map_cons, List.map_cons, hview, hviews], hr⟩

/-- A list of parts with a separator between them is told from its text when each part is told from
what can follow it, which includes the separator, and the text does not go on with the separator. -/
theorem intercalate_inj (Follows : List Char → Prop) {sep : List Char}
    (tells : ∀ ⦃a a' rest rest'⦄, Member a → Member a' → Follows rest → Follows rest' →
      form a ++ rest = form a' ++ rest' → view a = view a' ∧ rest = rest')
    (separates : ∀ rest, Follows (sep ++ rest)) {l l' : List α} {rest rest' : List Char}
    (hl : ∀ a ∈ l, Member a) (hl' : ∀ a ∈ l', Member a) (hne : l ≠ []) (hne' : l' ≠ [])
    (hrest : Follows rest ∧ ¬ sep <+: rest) (hrest' : Follows rest' ∧ ¬ sep <+: rest')
    (h : sep.intercalate (l.map form) ++ rest = sep.intercalate (l'.map form) ++ rest') :
    l.map view = l'.map view ∧ rest = rest' := by
  have hcons (a b : α) (l : List α) (rest : List Char) :
      sep.intercalate ((a :: b :: l).map form) ++ rest =
        form a ++ (sep ++ (sep.intercalate ((b :: l).map form) ++ rest)) := by
    simp [List.append_assoc]
  have hone (a : α) : sep.intercalate ([a].map form) = form a := by simp
  induction l generalizing l' with
  | nil => exact absurd rfl hne
  | cons a as ih =>
    cases l' with
    | nil => exact absurd rfl hne'
    | cons a' as' =>
      rw [List.forall_mem_cons] at hl hl'
      cases as with
      | nil =>
        cases as' with
        | nil =>
          rw [hone, hone] at h
          obtain ⟨hview, hr⟩ := tells hl.1 hl'.1 hrest.1 hrest'.1 h
          exact ⟨by simp [hview], hr⟩
        | cons b' bs' =>
          rw [hone, hcons] at h
          obtain ⟨-, hr⟩ := tells hl.1 hl'.1 hrest.1 (separates _) h
          exact absurd ⟨_, hr.symm⟩ hrest.2
      | cons b bs =>
        cases as' with
        | nil =>
          rw [hone, hcons] at h
          obtain ⟨-, hr⟩ := tells hl.1 hl'.1 (separates _) hrest'.1 h
          exact absurd ⟨_, hr⟩ hrest'.2
        | cons b' bs' =>
          rw [hcons, hcons] at h
          obtain ⟨hview, htail⟩ := tells hl.1 hl'.1 (separates _) (separates _) h
          obtain ⟨hviews, hr⟩ := ih hl.2 hl'.2 (List.cons_ne_nil _ _) (List.cons_ne_nil _ _)
            (List.append_cancel_left htail)
          exact ⟨by rw [List.map_cons, hviews, hview, ← List.map_cons], hr⟩

end Lists
end ClassGrammar.Text
