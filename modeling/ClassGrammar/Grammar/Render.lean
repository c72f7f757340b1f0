import ClassGrammar.Grammar.Basic

/-! The text of a grammar, line by line. -/
namespace ClassGrammar

def SimpleType.text : SimpleType → String
  | primitive p => p.name
  | named ref => ref.name

namespace TypeExpr

/-- The type as it is shown; a reference looks like the type that it refers to. -/
def text : TypeExpr → String
  | simple t => t.text
  | reference t => t.text
  | array e => e.text ++ "[]"

/-- The type as it is written in an interface: a reference to a declaration is marked. -/
def source : TypeExpr → String
  | simple t => t.text
  | reference (.named ref) => "@" ++ ref.name
  | reference (.primitive p) => p.name
  | array e => e.source ++ "[]"

end TypeExpr

def Attribute.line (a : Attribute) : String :=
  "    " ++ a.name ++ (if a.isOptional then "?" else "") ++ ": " ++ a.type.source

namespace Interface

def header (i : Interface) : String :=
  "interface " ++ i.name ++
    match i.superTypes with
    | [] => ""
    | supers => " extends " ++ ", ".intercalate (supers.map (·.name))

def lines (i : Interface) : List String :=
  match i.attributes with
  | [] => [i.header ++ " \x7b\x7d"]
  | attributes => (i.header ++ " \x7b") :: (attributes.map Attribute.line ++ ["\x7d"])

end Interface

/-- A union without literals leaves only a remark. -/
def Union.line (u : Union) : String :=
  match u.literals with
  | [] => "// enumeration " ++ u.name ++ " has no literals"
  | literals => "type " ++ u.name ++ " = " ++ " | ".intercalate (literals.map quoted) ++ ";"

namespace Grammar

def lines (g : Grammar) : List String :=
  ["grammar " ++ g.name, "", "entry " ++ g.entryRule ++ ":", "    (elements+=ID)*;"] ++
    g.interfaces.flatMap (fun i => "" :: i.lines) ++
    g.unions.flatMap (fun u => ["", u.line]) ++
    ["", "hidden terminal WS: /\\s+/;", "terminal ID: /[_a-zA-Z][\\w_]*/;"] ++
    g.primitives.map Primitive.terminal

/-- The text of the grammar; every line ends with a line feed. -/
def render (g : Grammar) : String := String.join (g.lines.map (· ++ "\n"))

end Grammar
end ClassGrammar
