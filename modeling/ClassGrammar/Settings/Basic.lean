/-! The settings of a run. Each of them has a default. -/
namespace ClassGrammar

/-- What to do with an association that has neither one nor two navigable ends. -/
inductive ArityPolicy where
  | strict
  | lenient
  deriving DecidableEq, Repr

/-- Which attributes are optional when their lower bound is zero. -/
inductive OptionalityPolicy where
  /-- All of them. -/
  | lowerBound
  /-- Those that are not composite. -/
  | alwaysRequired
  deriving DecidableEq, Repr

def ArityPolicy.name : ArityPolicy → String
  | strict => "strict"
  | lenient => "lenient"

def ArityPolicy.ofName? (s : String) : Option ArityPolicy :=
  [strict, lenient].find? (·.name == s)

def OptionalityPolicy.name : OptionalityPolicy → String
  | lowerBound => "lower_bound"
  | alwaysRequired => "always_required"

def OptionalityPolicy.ofName? (s : String) : Option OptionalityPolicy :=
  [lowerBound, alwaysRequired].find? (·.name == s)

structure Settings where
  /-- The name in the header of the grammar. -/
  grammarName : String := "MyGrammar"
  entryRule : String := "Model"
  associationArity : ArityPolicy := .strict
  compositeOptionality : OptionalityPolicy := .lowerBound
  deriving DecidableEq, Repr

end ClassGrammar
