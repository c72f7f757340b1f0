import ClassGrammar.Text.Utf8

/-! Positions in a YAML text, and the classes of its characters. -/
namespace ClassGrammar.Settings.Yaml

structure Mark where
  line : Nat := 0
  /-- The number of characters before the position on its line. -/
  column : Nat := 0
  /-- The number of bytes that encode these characters. -/
  offset : Nat := 0
  deriving DecidableEq, Repr

/-- The position after more characters of the same line. -/
def Mark.past (m : Mark) (cs : List Char) : Mark :=
  { m with column := m.column + cs.length, offset := m.offset + Text.encodedSize cs }

/-- The start of the next line. -/
def Mark.newLine (m : Mark) : Mark := { line := m.line + 1 }

/-- The characters that a text may hold. -/
def isAllowed (c : Char) : Bool :=
  c == '\t' || c == '\n' || c == '\r' || (0x20 ≤ c.val && c.val ≤ 0x7E) || c.val == 0x85 ||
  (0xA0 ≤ c.val && c.val ≤ 0xD7FF) || (0xE000 ≤ c.val && c.val ≤ 0xFFFD) || 0x10000 ≤ c.val

def isBlank (c : Char) : Bool := c == ' ' || c == '\t'

def isBreak (c : Char) : Bool :=
  c == '\n' || c == '\r' || c.val == 0x85 || c.val == 0x2028 || c.val == 0x2029

/-- What a line break leaves in a scalar: only the separators of lines and paragraphs stay. -/
def breakText (c : Char) : Char := if c.val == 0x2028 || c.val == 0x2029 then c else '\n'

/-- The number of characters of the line break at the start of the text. -/
def breakLength (cs : List Char) : Nat := if ['\r', '\n'].isPrefixOf cs then 2 else 1

/-- Whether the text starts with a blank or a line break, or is empty. -/
def endsWord (cs : List Char) : Bool :=
  match cs with
  | [] => true
  | c :: _ => isBlank c || isBreak c

/-- Whether the text starts with three times the character, as a word. -/
def isTriple (c : Char) (cs : List Char) : Bool :=
  [c, c, c].isPrefixOf cs && endsWord (cs.drop 3)

/-- Whether the text starts with the mark of the start or end of a document. -/
def isDocumentMark (cs : List Char) : Bool := isTriple '-' cs || isTriple '.' cs

/-- The brackets and the comma of flow collections. -/
def isFlowMark (c : Char) : Bool :=
  c == ',' || c == '[' || c == ']' || c == '\x7b' || c == '\x7d'

end ClassGrammar.Settings.Yaml
