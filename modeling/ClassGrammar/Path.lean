/-! Paths as texts: the parts between their slashes, and the extension of the file that they name.
-/
namespace ClassGrammar.Path

/-- The parts of a path between slashes. -/
def parts (path : String) : List String := go path.toList
where
  go : List Char → List String
    | [] => [""]
    | c :: cs =>
        if c = '/' then "" :: go cs
        else match go cs with
          | [] => [String.singleton c]
          | part :: rest => (String.singleton c ++ part) :: rest

/-- The last part that names something. A path that ends by going up names no file. -/
def fileName? (path : String) : Option String :=
  match ((parts path).filter fun part => part ≠ "" ∧ part ≠ ".").getLast? with
  | some ".." => none
  | name => name

/-- What follows the last dot of the file name, unless the name only starts with it. -/
def extension? (path : String) : Option String := do
  let cs := (← fileName? path).toList
  let after := (cs.reverse.takeWhile (· ≠ '.')).reverse
  if after.length + 1 < cs.length then some (String.ofList after) else none

end ClassGrammar.Path
