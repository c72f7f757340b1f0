import ClassGrammar.Text.Utf8

/-! Bytes of markup: the characters that delimit it, and the search for a sequence of bytes. -/
namespace ClassGrammar.Markup

/-- The byte of an ASCII character. -/
def byte (c : Char) : UInt8 := UInt8.ofNat c.toNat

/-- The bytes of a text of ASCII characters. -/
def ascii (s : String) : Bytes := s.toList.map byte

/-- Space, tab, carriage return and line feed. -/
def isSpace (b : UInt8) : Bool := b == 0x20 || b == 0x09 || b == 0x0D || b == 0x0A

/-- The position of the first occurrence of a sequence. -/
def find? (sequence : Bytes) : Bytes → Option Nat
  | [] => if sequence.isEmpty then some 0 else none
  | b :: rest =>
      if sequence.isPrefixOf (b :: rest) then some 0
      else (find? sequence rest).map (· + 1)

theorem find?_isSome_iff {sequence bytes : Bytes} :
    (find? sequence bytes).isSome ↔ sequence <:+: bytes := by
  induction bytes with
  | nil => cases sequence <;> simp [find?]
  | cons b rest ih =>
    unfold find?
    by_cases h : sequence.isPrefixOf (b :: rest)
    · simp [h, (List.isPrefixOf_iff_prefix.mp h).isInfix]
    · simp only [h, Bool.false_eq_true, ↓reduceIte, Option.isSome_map, ih]
      rw [List.infix_cons_iff]
      simp [← List.isPrefixOf_iff_prefix, h]

end ClassGrammar.Markup
