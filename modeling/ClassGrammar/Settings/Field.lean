import ClassGrammar.Settings.Basic

/-! Settings from the fields of a settings file. -/
namespace ClassGrammar

inductive Field where
  | grammarName
  | entryRule
  | associationArity
  | compositeOptionality
  deriving DecidableEq, Repr

namespace Field

def all : List Field := [grammarName, entryRule, associationArity, compositeOptionality]

def key : Field → String
  | grammarName => "grammar_name"
  | entryRule => "entry_rule"
  | associationArity => "association_arity"
  | compositeOptionality => "composite_optionality"

def ofKey? (s : String) : Option Field := all.find? (·.key == s)

/-- Whether the value is the name of a policy and not any text. -/
def isPolicy : Field → Bool
  | associationArity => true
  | compositeOptionality => true
  | _ => false

end Field

namespace Settings

/-- The settings with one field set; nothing when a policy has no such name. -/
def set? (s : Settings) (f : Field) (value : String) : Option Settings :=
  match f with
  | .grammarName => some { s with grammarName := value }
  | .entryRule => some { s with entryRule := value }
  | .associationArity =>
      (ArityPolicy.ofName? value).map fun p => { s with associationArity := p }
  | .compositeOptionality =>
      (OptionalityPolicy.ofName? value).map fun p => { s with compositeOptionality := p }

def setAll? (s : Settings) : List (Field × String) → Option Settings
  | [] => some s
  | (f, value) :: rest => (s.set? f value).bind (setAll? · rest)

/-- The default settings with the given fields set, each at most once. -/
def ofFields? (fields : List (Field × String)) : Option Settings :=
  if (fields.map Prod.fst).Nodup then setAll? {} fields else none

end Settings
end ClassGrammar
