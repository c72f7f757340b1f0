import ClassGrammar.Settings.Yaml.Mark
import ClassGrammar.Text.Number

/-! The three ways to write a scalar: plain, quoted, and as a literal block. Each reader takes the
text from a position on and tells where the scalar ends. -/
namespace ClassGrammar.Settings.Yaml

structure Scanned where
  text : List Char
  /-- Whether line breaks were passed after the last character of the scalar. -/
  passedLine : Bool
  mark : Mark
  rest : List Char

/-- The blanks and line breaks passed since the last character of a scalar. -/
inductive Gap where
  | spaces (cs : List Char)
  /-- Line breaks, of which the first one may have been escaped. -/
  | lines (first : Option Char) (more : List Char)
  deriving DecidableEq

namespace Gap

def none : Gap := spaces []

def hasLines : Gap → Bool
  | spaces _ => false
  | lines _ _ => true

/-- Blanks count only on the line where the gap starts. -/
def addBlank (c : Char) : Gap → Gap
  | spaces cs => spaces (cs ++ [c])
  | g => g

def addBreak (c : Char) : Gap → Gap
  | spaces _ => lines (some (breakText c)) []
  | lines first more => lines first (more ++ [breakText c])

/-- What the gap leaves in the scalar: one line break becomes a space, of several all but the
first one stay. -/
def text : Gap → List Char
  | spaces cs => cs
  | lines (some '\n') [] => [' ']
  | lines (some '\n') more => more
  | lines first more => first.toList ++ more

end Gap

/-- Reads a plain scalar. Inside flow collections their marks end it; elsewhere it ends before a
line that starts to the left of `margin`. `text` is the part read so far, reversed. -/
def plain (inFlow : Bool) (margin : Nat) (text : List Char) (gap : Gap) (m : Mark)
    (cs : List Char) : Option Scanned :=
  match cs with
  | [] => some ⟨text.reverse, gap.hasLines, m, []⟩
  | c :: rest =>
      if isBreak c then
        let n := breakLength (c :: rest)
        plain inFlow margin text (gap.addBreak c) m.newLine (rest.drop (n - 1))
      else if isBlank c then
        if gap.hasLines ∧ m.column < margin ∧ c = '\t' then none
        else plain inFlow margin text (gap.addBlank c) (m.past [c]) rest
      else if gap ≠ .none ∧ ((!inFlow ∧ m.column < margin) ∨ c = '#' ∨
          (m.column = 0 ∧ isDocumentMark (c :: rest))) then
        some ⟨text.reverse, gap.hasLines, m, c :: rest⟩
      else if inFlow ∧ c = ':' ∧ rest.head?.any (fun d => isFlowMark d || d == '?') then none
      else if (c = ':' ∧ endsWord rest) ∨ (inFlow ∧ isFlowMark c) then
        some ⟨text.reverse, gap.hasLines, m, c :: rest⟩
      else plain inFlow margin (c :: (gap.text.reverse ++ text)) .none (m.past [c]) rest
termination_by cs.length
decreasing_by all_goals simp only [List.length_cons, List.length_drop]; omega

/-- The character with the code of exactly `n` hexadecimal digits at the start of the text. -/
def hexCharacter? (n : Nat) (cs : List Char) : Option Char := do
  let digits ← (cs.take n).mapM (Text.digitIn? 16)
  let code := digits.foldl (fun a d => 16 * a + d) 0
  if digits.length = n ∧ code.isValidChar then some (Char.ofNat code) else none

/-- The character of an escape after its backslash, and its length. -/
def escaped? (cs : List Char) : Option (Char × Nat) :=
  match cs with
  | '0' :: _ => some ('\x00', 1)
  | 'a' :: _ => some ('\x07', 1)
  | 'b' :: _ => some ('\x08', 1)
  | 't' :: _ => some ('\t', 1)
  | '\t' :: _ => some ('\t', 1)
  | 'n' :: _ => some ('\n', 1)
  | 'v' :: _ => some ('\x0B', 1)
  | 'f' :: _ => some ('\x0C', 1)
  | 'r' :: _ => some ('\r', 1)
  | 'e' :: _ => some ('\x1B', 1)
  | ' ' :: _ => some (' ', 1)
  | '\x22' :: _ => some ('\x22', 1)
  | '/' :: _ => some ('/', 1)
  | '\\' :: _ => some ('\\', 1)
  | 'N' :: _ => some (Char.ofNat 0x85, 1)
  | '_' :: _ => some (Char.ofNat 0xA0, 1)
  | 'L' :: _ => some (Char.ofNat 0x2028, 1)
  | 'P' :: _ => some (Char.ofNat 0x2029, 1)
  | 'x' :: rest => (hexCharacter? 2 rest).map fun c => (c, 3)
  | 'u' :: rest => (hexCharacter? 4 rest).map fun c => (c, 5)
  | 'U' :: rest => (hexCharacter? 8 rest).map fun c => (c, 9)
  | _ => none

/-- Reads a quoted scalar after its opening quote. Only double quotes know escapes; a single quote
is written twice. `text` is the part read so far, reversed. -/
def quoted (quote : Char) (text : List Char) (gap : Gap) (m : Mark) (cs : List Char) :
    Option Scanned :=
  match cs with
  | [] => none
  | c :: rest =>
      if isBreak c then
        let n := breakLength (c :: rest)
        quoted quote text (gap.addBreak c) m.newLine (rest.drop (n - 1))
      else if isBlank c then quoted quote text (gap.addBlank c) (m.past [c]) rest
      else if m.column = 0 ∧ isDocumentMark (c :: rest) then none
      else
        let text := gap.text.reverse ++ text
        if c = quote then
          if c = '\x27' ∧ rest.head? = some c then
            quoted quote (c :: text) .none (m.past [c, c]) (rest.drop 1)
          else some ⟨text.reverse, false, m.past [c], rest⟩
        else if c = '\\' ∧ quote = '\x22' then
          if rest.head?.any isBreak then
            let n := breakLength rest
            quoted quote text (.lines none []) m.newLine (rest.drop n)
          else match escaped? rest with
            | some (e, n) =>
                quoted quote (e :: text) .none (m.past (c :: rest.take n)) (rest.drop n)
            | none => none
        else quoted quote (c :: text) .none (m.past [c]) rest
termination_by cs.length
decreasing_by all_goals simp only [List.length_cons, List.length_drop]; omega

/-- Which line breaks at the end of a literal block belong to it. -/
inductive Chomp where
  | strip
  | clip
  | keep
  deriving DecidableEq

structure BlockHeader where
  chomp : Chomp := .clip
  /-- The stated indentation, zero when it is left to the first line. -/
  indent : Nat := 0

def chompMark? (c : Char) : Option Chomp :=
  if c = '+' then some .keep else if c = '-' then some .strip else none

def indentMark? (c : Char) : Option Nat :=
  if '1' ≤ c ∧ c ≤ '9' then some (c.toNat - 48) else none

/-- The header of a literal block, in either order of its two parts, and its length. -/
def blockHeader (cs : List Char) : BlockHeader × Nat :=
  match cs.head?.bind chompMark?, cs.head?.bind indentMark? with
  | some chomp, _ => match (cs.drop 1).head?.bind indentMark? with
    | some indent => (⟨chomp, indent⟩, 2)
    | none => (⟨chomp, 0⟩, 1)
  | none, some indent => match (cs.drop 1).head?.bind chompMark? with
    | some chomp => (⟨chomp, indent⟩, 2)
    | none => (⟨.clip, indent⟩, 1)
  | none, none => ({}, 0)

/-- A literal block while it is read. -/
structure Block where
  chomp : Chomp
  /-- The least indentation, when the first line decides it. -/
  margin : Nat
  /-- The indentation, zero until it is known. -/
  indent : Nat
  /-- The greatest indentation of the empty lines before the first line. -/
  widest : Nat := 0
  /-- The lines so far, reversed. -/
  text : List Char := []
  /-- The line break of the last line, when that line has ended. -/
  last : Option Char := none
  /-- The line breaks of the empty lines after it. -/
  empty : List Char := []
  inLine : Bool := false

def Block.finish (b : Block) (m : Mark) (rest : List Char) : Scanned :=
  let last := if b.chomp = .strip then [] else b.last.toList
  let empty := if b.chomp = .keep then b.empty else []
  ⟨b.text.reverse ++ last ++ empty, false, m, rest⟩

/-- The indentation once a line with content begins. -/
def Block.settled (b : Block) (column : Nat) : Nat :=
  if b.indent = 0 then max (max (max b.widest column) b.margin) 1 else b.indent

/-- Reads the lines of a literal block. -/
def Block.read (b : Block) (m : Mark) (cs : List Char) : Option Scanned :=
  match cs with
  | [] => some (b.finish m [])
  | c :: rest =>
      let n := breakLength (c :: rest)
      if b.inLine then
        if isBreak c then
          { b with last := some (breakText c), inLine := false }.read m.newLine
            (rest.drop (n - 1))
        else { b with text := c :: b.text }.read (m.past [c]) rest
      else
        let shallow := b.indent = 0 ∨ m.column < b.indent
        if c = ' ' ∧ shallow then b.read (m.past [c]) rest
        else if c = '\t' ∧ shallow then none
        else if isBreak c then
          { b with widest := max b.widest m.column, empty := b.empty ++ [breakText c] }.read
            m.newLine (rest.drop (n - 1))
        else if m.column = b.settled m.column then
          { b with
            indent := b.settled m.column
            text := c :: ((b.last.toList ++ b.empty).reverse ++ b.text)
            last := none
            empty := []
            inLine := true }.read (m.past [c]) rest
        else some (b.finish m (c :: rest))
termination_by cs.length
decreasing_by all_goals simp only [List.length_cons, List.length_drop]; omega

/-- Reads a literal block after its mark. Only blanks and a comment may stand on its first line. -/
def literal (margin : Nat) (m : Mark) (cs : List Char) : Option Scanned :=
  let header := blockHeader cs
  let afterHeader := cs.drop header.2
  let afterBlanks := afterHeader.dropWhile isBlank
  let line :=
    if afterBlanks.head? = some '#' then afterBlanks.dropWhile fun c => !isBreak c else afterBlanks
  let m := m.past (cs.take (cs.length - line.length))
  let indent := if header.1.indent = 0 then 0 else margin - 1 + header.1.indent
  let block : Block := { chomp := header.1.chomp, margin := margin, indent := indent }
  match line with
  | [] => block.read m []
  | c :: _ =>
      if isBreak c then
        let n := breakLength line
        block.read m.newLine (line.drop n)
      else none

end ClassGrammar.Settings.Yaml
