import ClassGrammar.Text.Utf8

/-! Why bytes are not a readable document. -/
namespace ClassGrammar.Markup

/-- Faults in the delimiters of markup and in the nesting of elements. -/
inductive SyntaxFault where
  | unknownMarkup
  | commentNotClosed
  | cdataNotClosed
  | doctypeNotClosed
  | doctypeUnnamed
  | instructionNotClosed
  | tagNotClosed
  | unmatchedEnd (found : String)
  | mismatchedEnd (expected found : String)
  deriving DecidableEq, Repr

def SyntaxFault.message : SyntaxFault → String
  | unknownMarkup => "syntax error: unknown or missed symbol in markup"
  | commentNotClosed =>
      "syntax error: comment not closed: `-->` not found before end of input"
  | cdataNotClosed => "syntax error: CDATA not closed: `]]>` not found before end of input"
  | doctypeNotClosed => "syntax error: DOCTYPE not closed: `>` not found before end of input"
  | doctypeUnnamed =>
      "ill-formed document: `<!DOCTYPE>` declaration does not contain a name of a document type"
  | instructionNotClosed => "syntax error: processing instruction or xml declaration " ++
      "not closed: `?>` not found before end of input"
  | tagNotClosed => "syntax error: tag not closed: `>` not found before end of input"
  | unmatchedEnd found =>
      s!"ill-formed document: close tag `</{found}>` does not match any open tag"
  | mismatchedEnd expected found =>
      s!"ill-formed document: expected `</{expected}>`, but `</{found}>` was found"

/-- Faults in the attributes of a tag. Positions count the bytes of the tag after its opening
bracket. -/
inductive AttributeFault where
  | missingEquals (position : Nat)
  | missingValue (position : Nat)
  | unquotedValue (position : Nat)
  | missingQuote (position : Nat) (quote : Char)
  | duplicate (position previous : Nat)
  deriving DecidableEq, Repr

def AttributeFault.message : AttributeFault → String
  | missingEquals n =>
      s!"position {n}: attribute key must be directly followed by `=` or space"
  | missingValue n => s!"position {n}: `=` must be followed by an attribute value"
  | unquotedValue n => s!"position {n}: attribute value must be enclosed in `\"` or `'`"
  | missingQuote n q =>
      s!"position {n}: missing closing quote `" ++ String.singleton q ++ "` in attribute value"
  | duplicate n m =>
      s!"position {n}: duplicated attribute, previous declaration at position {m}"

/-- Faults in the number of a character reference. -/
inductive NumberFault where
  | sign
  | empty
  | badDigit
  | tooLarge
  | zero
  | noCharacter (code : Nat)
  deriving DecidableEq, Repr

def NumberFault.message : NumberFault → String
  | sign => "unexpected number sign"
  | empty => "cannot parse integer from empty string"
  | badDigit => "invalid digit found in string"
  | tooLarge => "number too large to fit in target type"
  | zero => "0x0 character is not permitted in XML"
  | noCharacter code => s!"`{code}` is not a valid codepoint"

/-- Faults in the references of an attribute value. Positions count the bytes of the value. -/
inductive ReferenceFault where
  | notEnded (first last : Nat)
  | unknownEntity (first last : Nat) (name : String)
  | number (cause : NumberFault)
  deriving DecidableEq, Repr

def ReferenceFault.message : ReferenceFault → String
  | notEnded first last =>
      s!"Error while escaping character at range {first}..{last}: Cannot find ';' after '&'"
  | unknownEntity first last name => s!"at {first}..{last}: unrecognized entity `{name}`"
  | number cause => s!"invalid character reference: {cause.message}"

end ClassGrammar.Markup

namespace ClassGrammar

open Markup

/-- Why bytes are not a readable document. -/
inductive DocumentFault where
  /-- The bytes are not text. -/
  | notText (cause : Text.Utf8Fault)
  /-- The text names neither of the elements that can hold a model. -/
  | noModelTag
  | syntaxFault (position : Nat) (cause : SyntaxFault)
  | tagName (cause : Text.Utf8Fault)
  | attributes (cause : AttributeFault)
  | attributeKey (cause : Text.Utf8Fault)
  | attributeText (cause : Text.Utf8Fault)
  | attributeReference (cause : ReferenceFault)
  | unclosed (tag : String)
  deriving DecidableEq, Repr

def DocumentFault.message : DocumentFault → String
  | notText cause => s!"Invalid UTF-8: {cause.message}"
  | noModelTag => "Missing uml:Model or xmi:XMI root element"
  | syntaxFault position cause => s!"XML parse error at position {position}: {cause.message}"
  | tagName cause => s!"Invalid tag name: {cause.message}"
  | attributes cause => s!"Attribute error: {cause.message}"
  | attributeKey cause => s!"Attribute key error: {cause.message}"
  | attributeText cause =>
      s!"Attribute value error: cannot decode input using UTF-8: {cause.message}"
  | attributeReference cause => s!"Attribute value error: {cause.message}"
  | unclosed tag => s!"Unclosed element <{tag}>"

end ClassGrammar
