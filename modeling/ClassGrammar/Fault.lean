/-! The causes for which a run stops, and their messages. -/
namespace ClassGrammar

/-- Why a file could not be read or written. -/
inductive IoFault where
  | notFound
  | isDirectory
  | notDirectory
  | notText
  /-- Any other cause, with the message of the system. -/
  | other (text : String)
  deriving DecidableEq, Repr

def IoFault.message : IoFault → String
  | notFound => "No such file or directory (os error 2)"
  | isDirectory => "Is a directory (os error 21)"
  | notDirectory => "Not a directory (os error 20)"
  | notText => "stream did not contain valid UTF-8"
  | other text => text

/-- The first fault ends a run; there is no partial result. A `context` says where in the
document the fault was met. -/
inductive Fault where
  /-- The metaclass of a node is missing or has no place here. -/
  | unrecognizedKind (kind : Option String) (context : String)
  /-- An identifier or a type name has no declaration. -/
  | danglingReference (reference context : String)
  /-- An association does not have one or two navigable ends. -/
  | associationArity (association : String) (count : Nat)
  /-- A bound is neither a number nor a mark for many. -/
  | invalidMultiplicity (element value : String)
  | missingAttribute (name : String)
  | missingElement (name : String)
  /-- Two declarations would have the same name. -/
  | duplicateInterface (name : String)
  /-- The document is not well-formed or holds no model. -/
  | xml (detail : String)
  | io (cause : IoFault)
  | settings (detail : String)
  deriving DecidableEq, Repr

def Fault.message : Fault → String
  | unrecognizedKind kind context =>
      let shown := kind.getD "<missing>"
      s!"Unrecognized element kind '{shown}' ({context})"
  | danglingReference reference context => s!"Dangling reference '{reference}' ({context})"
  | associationArity association count =>
      s!"Association '{association}' has {count} navigable owned end(s); expected 1 or 2"
  | invalidMultiplicity element value => s!"Invalid multiplicity '{value}' on '{element}'"
  | missingAttribute name => s!"Missing required attribute: {name}"
  | missingElement name => s!"Missing required element: {name}"
  | duplicateInterface name => s!"Duplicate interface '{name}'"
  | xml detail => s!"XML error: {detail}"
  | io cause => s!"IO error: {cause.message}"
  | settings detail => s!"Configuration error: {detail}"

end ClassGrammar
