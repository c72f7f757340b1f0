import ClassGrammar.Text.Blank
import ClassGrammar.Text.Lowercase

/-! The primitive types of grammars and the terminal rules that declare them. -/
namespace ClassGrammar

inductive Primitive where
  | string
  | boolean
  | number
  | bigint
  | date
  deriving DecidableEq, Repr

namespace Primitive

def all : List Primitive := [string, boolean, number, bigint, date]

/-- The name that types of attributes use. -/
def name : Primitive → String
  | string => "string"
  | boolean => "boolean"
  | number => "number"
  | bigint => "bigint"
  | date => "Date"

def ofName? (s : String) : Option Primitive := all.find? (·.name == s)

/-- The primitive type for the name of a class-model type, without regard to letter case. -/
def ofTypeName? (s : String) : Option Primitive :=
  match Text.lowerAscii (Text.trim s) with
  | "string" => some string
  | "str" => some string
  | "boolean" => some boolean
  | "bool" => some boolean
  | "float" => some number
  | "double" => some number
  | "integer" => some bigint
  | "int" => some bigint
  | "date" => some date
  | _ => none

/-- The terminal rule of the type, one line of grammar text. -/
def terminal : Primitive → String
  | string => "terminal STRING: /\"(\\\\.|[^\"\\\\])*\"|'(\\\\.|[^'\\\\])*'/;"
  | boolean => "terminal BOOLEAN: /\\b(?:true|false)\\b/;"
  | number => "terminal FLOAT: [-+]?[0-9]*\\.?[0-9]+;"
  | bigint => "terminal INT: ^\\d+$;"
  | date =>
      "terminal DATE: /^(0[1-9]|[12][0-9]|3[01])/(0[1-9]|1[0-2])/(\\d\x7b4\x7d|\\d\x7b2\x7d)$;"

/-- The types that are not in `seen`, each where it stands first. -/
def firsts (seen : List Primitive) : List Primitive → List Primitive
  | [] => []
  | p :: ps => if p ∈ seen then firsts seen ps else p :: firsts (p :: seen) ps

/-- Each type once, in the order of first occurrence. -/
def dedupe (ps : List Primitive) : List Primitive := firsts [] ps

end Primitive
end ClassGrammar
