import ClassGrammar.Proofs.Models.Defects
import Mathlib.Data.List.TakeWhile
import Mathlib.Data.Nat.Digits.Defs

/-! What trimming leaves of a text, and which number a text denotes. Both are stated without reading
the text. -/
namespace ClassGrammar

namespace Text

/-- Whether a text is what is left of another one without the blanks at its two ends. -/
structure Trims (s t : String) : Prop where
  around : ∃ before after, s.toList = before ++ t.toList ++ after ∧
    ∀ c ∈ before ++ after, isBlank c = true
  first : ∀ c ∈ t.toList.head?, isBlank c = false
  last : ∀ c ∈ t.toList.getLast?, isBlank c = false

/-- Whether a text denotes a number: at least one ASCII digit, after an optional plus sign. -/
def Denotes (s : String) (n : Nat) : Prop :=
  ∃ digits : List Char, digits ≠ [] ∧ (∀ c ∈ digits, '0' ≤ c ∧ c ≤ '9') ∧
    (s.toList = digits ∨ s.toList = '+' :: digits) ∧
    n = Nat.ofDigits 10 (digits.reverse.map fun c => c.toNat - 48)

theorem dropWhile_of_head? {p : Char → Bool} {cs : List Char} (h : ∀ c ∈ cs.head?, p c = false) :
    cs.dropWhile p = cs := by
  cases cs with
  | nil => rfl
  | cons c rest =>
    have hc : p c = false := h c rfl
    rw [List.dropWhile_cons, hc]
    rfl

theorem head?_dropWhile (p : Char → Bool) (cs : List Char) :
    ∀ c ∈ (cs.dropWhile p).head?, p c = false := by
  intro c hc
  have hnot := List.head?_dropWhile_not p cs
  rw [Option.mem_def] at hc
  simpa [hc] using hnot

theorem trims_trim (s : String) : Trims s (trim s) := by
  have hrest := List.takeWhile_append_dropWhile (p := isBlank) (l := s.toList)
  have hback := List.takeWhile_append_dropWhile (p := isBlank)
    (l := (s.toList.dropWhile isBlank).reverse)
  have hsplit : s.toList.dropWhile isBlank = trimChars s.toList ++
      ((s.toList.dropWhile isBlank).reverse.takeWhile isBlank).reverse := by
    rw [trimChars, ← List.reverse_append, hback, List.reverse_reverse]
  have htrim : (trim s).toList = trimChars s.toList := String.toList_ofList
  refine ⟨⟨s.toList.takeWhile isBlank,
    ((s.toList.dropWhile isBlank).reverse.takeWhile isBlank).reverse, ?_, ?_⟩, ?_, ?_⟩
  · rw [htrim, List.append_assoc, ← hsplit, hrest]
  · intro c hc
    rcases List.mem_append.mp hc with hc | hc
    · exact List.mem_takeWhile_imp hc
    · exact List.mem_takeWhile_imp (List.mem_reverse.mp hc)
  · rw [htrim]
    intro c hc
    apply head?_dropWhile isBlank s.toList
    rw [hsplit, List.head?_append, Option.mem_def.mp hc]
    rfl
  · rw [htrim, trimChars, List.getLast?_reverse]
    exact head?_dropWhile isBlank _

theorem Trims.trim_eq {s t : String} (h : Trims s t) : trim s = t := by
  obtain ⟨before, after, hs, hblank⟩ := h.around
  have hbefore : ∀ c ∈ before, isBlank c = true := fun c hc => hblank c (List.mem_append_left _ hc)
  have hafter : ∀ c ∈ after.reverse, isBlank c = true := fun c hc =>
    hblank c (List.mem_append_right _ (List.mem_reverse.mp hc))
  have hchars : trimChars s.toList = t.toList := by
    rw [trimChars, hs, List.append_assoc, List.dropWhile_append_of_pos hbefore]
    by_cases ht : t.toList = []
    · have hnil : after.dropWhile isBlank = [] := by
        rw [List.dropWhile_eq_nil_iff]
        exact fun c hc => hafter c (List.mem_reverse.mpr hc)
      rw [ht, List.nil_append, hnil]
      rfl
    · have hfirst : ∀ c ∈ (t.toList ++ after).head?, isBlank c = false := by
        rw [List.head?_append_of_ne_nil _ ht]
        exact h.first
      have hlast : ∀ c ∈ t.toList.reverse.head?, isBlank c = false := by
        rw [List.head?_reverse]
        exact h.last
      rw [dropWhile_of_head? hfirst, List.reverse_append, List.dropWhile_append_of_pos hafter,
        dropWhile_of_head? hlast, List.reverse_reverse]
  rw [trim, hchars, String.ofList_toList]

theorem trim_eq_iff {s t : String} : trim s = t ↔ Trims s t := by
  constructor
  · rintro rfl
    exact trims_trim s
  · intro h
    exact h.trim_eq

theorem ofDigits_eq_foldl (digits : List Char) :
    Nat.ofDigits 10 (digits.reverse.map fun c => c.toNat - 48) =
      digits.foldl (fun n c => 10 * n + (c.toNat - 48)) 0 := by
  rw [Nat.ofDigits_eq_foldr, List.foldr_map, List.foldr_reverse]
  congr 1
  funext n c
  simp only [Nat.cast_id]
  omega

/-- The texts that are read as numbers are those that denote one of 32 bits. -/
theorem word?_eq_some_iff {s : String} {n : Nat} :
    word? s = some n ↔ Denotes s n ∧ n ≤ 4294967295 := by
  have hlimit : n < wordLimit ↔ n ≤ 4294967295 := Nat.lt_succ_iff
  rw [word?_eq_some, ← hlimit]
  constructor
  · rintro ⟨digits, hne, hs, hdigits, hvalue, hn⟩
    exact ⟨⟨digits, hne, hdigits, hs, hvalue.symm.trans (ofDigits_eq_foldl digits).symm⟩, hn⟩
  · rintro ⟨⟨digits, hne, hdigits, hs, hvalue⟩, hn⟩
    exact ⟨digits, hne, hs, hdigits, (ofDigits_eq_foldl digits).symm.trans hvalue.symm, hn⟩

/-- No sign is a digit, so a text has one reading as a number. -/
theorem Denotes.unique {s : String} {n n' : Nat} (h : Denotes s n) (h' : Denotes s n') :
    n = n' := by
  obtain ⟨digits, -, hdigits, hs, rfl⟩ := h
  obtain ⟨others, -, hothers, hs', rfl⟩ := h'
  have hplus : ¬ ('0' ≤ '+' ∧ '+' ≤ '9') := by decide
  have hsame : digits = others := by
    rcases hs with hs | hs <;> rcases hs' with hs' | hs' <;> rw [hs] at hs'
    · exact hs'
    · subst hs'
      exact absurd (hdigits '+' List.mem_cons_self) hplus
    · subst hs'
      exact absurd (hothers '+' List.mem_cons_self) hplus
    · exact (List.cons.inj hs').2
  rw [hsame]

/-- Whether a text denotes no number of 32 bits. -/
def IsNoWord (s : String) : Prop := ∀ n, Denotes s n → 4294967295 < n

theorem word?_eq_none_iff {s : String} : word? s = none ↔ IsNoWord s := by
  rw [Option.eq_none_iff_forall_ne_some]
  constructor
  · intro h n hn
    by_contra hle
    exact h n (word?_eq_some_iff.mpr ⟨hn, by omega⟩)
  · intro h n hn
    obtain ⟨hdenotes, hle⟩ := word?_eq_some_iff.mp hn
    have hlt := h n hdenotes
    omega

end Text
end ClassGrammar
