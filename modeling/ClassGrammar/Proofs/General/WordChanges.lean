import ClassGrammar.Text.Blank

/-! Changing the words of a text. The blanks between the words stay as they are. -/
namespace ClassGrammar.Text

/-- Whether a text is a single token: not empty, and without blanks. -/
def IsToken (s : String) : Prop := s.toList ≠ [] ∧ ∀ c ∈ s.toList, isBlank c = false

instance (s : String) : Decidable (IsToken s) :=
  inferInstanceAs (Decidable (s.toList ≠ [] ∧ ∀ c ∈ s.toList, isBlank c = false))

/-- The characters of a word after a change, none when there is no word. -/
def changeRun (f : String → String) (run : List Char) : List Char :=
  if run = [] then [] else (f (String.ofList run)).toList

/-- The text with a change to each word. The first list is the word that has begun. -/
def mapRuns (f : String → String) (run : List Char) : List Char → List Char
  | [] => changeRun f run
  | c :: cs =>
      if isBlank c then changeRun f run ++ c :: mapRuns f [] cs else mapRuns f (run ++ [c]) cs

def mapWords (f : String → String) (s : String) : String := String.ofList (mapRuns f [] s.toList)

/-- The words in a list of characters. -/
def wordsIn (cs : List Char) : List String :=
  ((splitBlank cs).filter fun part => !part.isEmpty).map String.ofList

/-- The words in a run of characters that are not blank. -/
def wordOf (run : List Char) : List String := if run = [] then [] else [String.ofList run]

theorem splitBlank_append {run cs : List Char} {part : List Char} {parts : List (List Char)}
    (hrun : ∀ c ∈ run, isBlank c = false) (h : splitBlank cs = part :: parts) :
    splitBlank (run ++ cs) = (run ++ part) :: parts := by
  induction run with
  | nil => exact h
  | cons c run ih =>
    have hc : isBlank c = false := hrun c List.mem_cons_self
    have hrest := ih fun x hx => hrun x (List.mem_cons_of_mem c hx)
    rw [List.cons_append, splitBlank, if_neg (by simp [hc]), hrest]
    rfl

theorem wordsIn_run {run : List Char} (hrun : ∀ c ∈ run, isBlank c = false) :
    wordsIn run = wordOf run := by
  have hsplit : splitBlank run = [run] := by
    simpa using splitBlank_append hrun (show splitBlank [] = [[]] from rfl)
  unfold wordsIn wordOf
  rw [hsplit]
  cases run <;> rfl

/-- A blank ends a word. -/
theorem wordsIn_append {run : List Char} (hrun : ∀ c ∈ run, isBlank c = false) {c : Char}
    (hc : isBlank c = true) (cs : List Char) :
    wordsIn (run ++ c :: cs) = wordOf run ++ wordsIn cs := by
  have hsplit : splitBlank (run ++ c :: cs) = run :: splitBlank cs := by
    have hblank : splitBlank (c :: cs) = [] :: splitBlank cs := by rw [splitBlank, if_pos hc]
    simpa using splitBlank_append hrun hblank
  unfold wordsIn wordOf
  rw [hsplit]
  cases run <;> rfl

section

variable {f : String → String} (hf : ∀ w, IsToken w → IsToken (f w))
include hf

theorem changeRun_not_blank {run : List Char} (hrun : ∀ c ∈ run, isBlank c = false) :
    (∀ c ∈ changeRun f run, isBlank c = false) ∧
      wordOf (changeRun f run) = (wordOf run).map f := by
  unfold changeRun wordOf
  by_cases hnil : run = []
  · simp [hnil]
  · have hword : IsToken (String.ofList run) := by
      unfold IsToken
      rw [String.toList_ofList]
      exact ⟨hnil, hrun⟩
    have hchanged := hf _ hword
    simp only [if_neg hnil, List.map_cons, List.map_nil, String.ofList_toList]
    exact ⟨hchanged.2, if_neg hchanged.1⟩

theorem wordsIn_mapRuns {run : List Char} (hrun : ∀ c ∈ run, isBlank c = false)
    (cs : List Char) : wordsIn (mapRuns f run cs) = (wordsIn (run ++ cs)).map f := by
  induction cs generalizing run with
  | nil =>
    obtain ⟨hblank, hword⟩ := changeRun_not_blank hf hrun
    rw [mapRuns, List.append_nil, wordsIn_run hblank, hword, wordsIn_run hrun]
  | cons c cs ih =>
    obtain ⟨hblank, hword⟩ := changeRun_not_blank hf hrun
    unfold mapRuns
    by_cases hc : isBlank c = true
    · rw [if_pos hc, wordsIn_append hblank hc, hword, wordsIn_append hrun hc, List.map_append,
        ih (by simp)]
      rfl
    · have hext : ∀ x ∈ run ++ [c], isBlank x = false := by
        intro x hx
        rcases List.mem_append.mp hx with hx | hx
        · exact hrun x hx
        · rw [List.mem_singleton.mp hx]
          simpa using hc
      rw [if_neg hc, ih hext, List.append_assoc, List.singleton_append]

/-- A change to the words of a text changes its words, when it turns words into words. -/
theorem words_mapWords (s : String) : words (mapWords f s) = (words s).map f := by
  have h := wordsIn_mapRuns hf (show ∀ c ∈ [], isBlank c = false by simp) s.toList
  rw [List.nil_append] at h
  unfold words mapWords
  rw [String.toList_ofList]
  exact h

end

example : mapWords (fun w => w ++ "'") " a  bc\t" = " a'  bc'\t" := by decide +kernel

end ClassGrammar.Text
