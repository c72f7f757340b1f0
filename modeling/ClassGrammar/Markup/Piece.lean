import ClassGrammar.Markup.Bytes
import ClassGrammar.Markup.Fault

/-! Documents as sequences of markup pieces. Text between them carries nothing for the reader and
is passed over; start and end tags are matched while they are cut out. -/
namespace ClassGrammar.Markup

inductive Piece where
  /-- A start tag, with the bytes between its brackets. -/
  | startTag (content : Bytes)
  /-- A tag of an element without content, less its final slash. -/
  | emptyTag (content : Bytes)
  /-- The end of the innermost open element. -/
  | endTag
  /-- A comment, character data, a declaration or a processing instruction. -/
  | ignored
  /-- The document is not well-formed from here on. -/
  | broken (position : Nat) (fault : SyntaxFault)
  deriving DecidableEq, Repr

/-- The position of the first `>` outside quotes; `quote` is the quote that is open. -/
def tagEnd? (quote : Option UInt8) : Bytes → Option Nat
  | [] => none
  | b :: rest =>
      match quote with
      | some q => (tagEnd? (if b = q then none else quote) rest).map (· + 1)
      | none =>
          if b = byte '>' then some 0
          else
            (tagEnd? (if b = byte '\x22' ∨ b = byte '\x27' then some b else none) rest).map (· + 1)

/-- The position of the `>` that closes a document type; each `<` inside needs one more. -/
def doctypeEnd? : Nat → Bytes → Option Nat
  | _, [] => none
  | depth, b :: rest =>
      if b = byte '>' then
        match depth with
        | 0 => some 0
        | depth + 1 => (doctypeEnd? depth rest).map (· + 1)
      else (doctypeEnd? (if b = byte '<' then depth + 1 else depth) rest).map (· + 1)

/-- What stands after an opening bracket, before tags are matched. -/
inductive Raw where
  | ignored
  | tag (content : Bytes)
  | closing (name : Bytes)
  deriving DecidableEq, Repr

/-- A fault with its distance from the opening bracket. -/
abbrev Broken := Nat × SyntaxFault

/-- A comment, from its second hyphen on. -/
def comment (rest : Bytes) : Except Broken (Raw × Nat) :=
  match rest with
  | b :: body => match find? (ascii "-->") body with
    | some k => if b = byte '-' then .ok (.ignored, k + 4) else .error (0, .commentNotClosed)
    | none => .error (0, .commentNotClosed)
  | [] => .error (0, .commentNotClosed)

/-- Character data, from its first bracket on. -/
def characterData (rest : Bytes) : Except Broken (Raw × Nat) :=
  match find? (ascii "]]>") rest with
  | some k =>
      if (ascii "[CDATA[").isPrefixOf (rest.take k) then .ok (.ignored, k + 3)
      else .error (0, .cdataNotClosed)
  | none => .error (0, .cdataNotClosed)

def lowerByte (b : UInt8) : UInt8 := if byte 'A' ≤ b ∧ b ≤ byte 'Z' then b + 32 else b

/-- A document type, from the first letter on. It has to name the type. -/
def doctype (rest : Bytes) : Except Broken (Raw × Nat) :=
  match doctypeEnd? 0 rest with
  | some k =>
      let content := rest.take k
      if (content.take 7).map lowerByte ≠ ascii "doctype" then .error (0, .doctypeNotClosed)
      else if (content.drop 7).all isSpace then .error (k + 2, .doctypeUnnamed)
      else .ok (.ignored, k + 1)
  | none => .error (0, .doctypeNotClosed)

/-- A processing instruction, from its first question mark on. -/
def instruction (rest : Bytes) : Except Broken (Raw × Nat) :=
  match find? (ascii "?>") rest with
  | some (k + 1) => .ok (.ignored, k + 3)
  | _ => .error (0, .instructionNotClosed)

def trimEnd (bytes : Bytes) : Bytes := (bytes.reverse.dropWhile isSpace).reverse

/-- The name of an end tag, less the spaces after it; a name of spaces only is kept. -/
def endName (bytes : Bytes) : Bytes := if bytes.all isSpace then bytes else trimEnd bytes

/-- A start or end tag. -/
def tag (rest : Bytes) : Except Broken (Raw × Nat) :=
  match tagEnd? none rest with
  | some k => match rest.take k with
    | b :: name => .ok (if b = byte '/' then .closing (endName name) else .tag (b :: name), k + 1)
    | [] => .ok (.tag [], k + 1)
  | none => .error (0, .tagNotClosed)

/-- The markup after an opening bracket, and the number of its bytes. -/
def markup (rest : Bytes) : Except Broken (Raw × Nat) :=
  match rest with
  | [] => .error (0, .tagNotClosed)
  | b :: more =>
      if b = byte '!' then
        match more with
        | [] => .error (0, .unknownMarkup)
        | c :: after =>
            if c = byte '[' then (characterData more).map fun r => (r.1, r.2 + 1)
            else if c = byte '-' then (comment after).map fun r => (r.1, r.2 + 2)
            else if c = byte 'D' ∨ c = byte 'd' then (doctype more).map fun r => (r.1, r.2 + 1)
            else .error (0, .unknownMarkup)
      else if b = byte '?' then instruction rest
      else tag rest

/-- The name of a tag, which ends at the first space. -/
def tagName (content : Bytes) : Bytes := content.takeWhile fun b => !isSpace b

/-- A name in a fault message; a name that is not text is left out. -/
def shownName (name : Bytes) : String := (Text.decodeUtf8 name).toOption.getD ""

/-- The pieces of the bytes from a position on, with the names of the open elements. -/
def pieces (opened : List Bytes) (position : Nat) (bytes : Bytes) : List Piece :=
  match bytes with
  | [] => []
  | b :: rest =>
      if b ≠ byte '<' then pieces opened (position + 1) rest
      else match markup rest with
        | .error (offset, fault) => [.broken (position + offset) fault]
        | .ok (.ignored, used) =>
            .ignored :: pieces opened (position + 1 + used) (rest.drop used)
        | .ok (.tag content, used) =>
            if content.getLast? = some (byte '/') then
              .emptyTag content.dropLast :: pieces opened (position + 1 + used) (rest.drop used)
            else
              .startTag content ::
                pieces (tagName content :: opened) (position + 1 + used) (rest.drop used)
        | .ok (.closing name, used) => match opened with
          | [] => [.broken position (.unmatchedEnd (shownName name))]
          | expected :: outer =>
              if name = expected then
                .endTag :: pieces outer (position + 1 + used) (rest.drop used)
              else [.broken position (.mismatchedEnd (shownName expected) (shownName name))]
termination_by bytes.length
decreasing_by all_goals simp only [List.length_cons, List.length_drop]; omega

/-- The pieces of a document; a byte order mark at its start does not count. -/
def piecesOf (bytes : Bytes) : List Piece :=
  pieces [] 0 (if [0xEF, 0xBB, 0xBF].isPrefixOf bytes then bytes.drop 3 else bytes)

end ClassGrammar.Markup
