/-! Blank characters, trimming, and splitting a text into words. -/
namespace ClassGrammar.Text

/-- The characters that Unicode gives the property `White_Space`. -/
def isBlank (c : Char) : Bool :=
  (0x09 ≤ c.val && c.val ≤ 0x0D) || c.val == 0x20 || c.val == 0x85 || c.val == 0xA0 ||
  c.val == 0x1680 || (0x2000 ≤ c.val && c.val ≤ 0x200A) || c.val == 0x2028 ||
  c.val == 0x2029 || c.val == 0x202F || c.val == 0x205F || c.val == 0x3000

def trimChars (cs : List Char) : List Char :=
  ((cs.dropWhile isBlank).reverse.dropWhile isBlank).reverse

/-- The text without the blanks at its two ends. -/
def trim (s : String) : String := String.ofList (trimChars s.toList)

/-- The parts between single blanks, empty ones included. -/
def splitBlank : List Char → List (List Char)
  | [] => [[]]
  | c :: cs =>
      if isBlank c then [] :: splitBlank cs
      else match splitBlank cs with
        | [] => [[c]]
        | part :: parts => (c :: part) :: parts

/-- The maximal runs of characters that are not blank. -/
def words (s : String) : List String :=
  ((splitBlank s.toList).filter fun part => !part.isEmpty).map String.ofList

end ClassGrammar.Text
