import ClassGrammar.Settings.Field
import ClassGrammar.Text.Number

/-! Settings in JSON. The text is cut into tokens, which a stack of open arrays and objects
assembles into a value. -/
namespace ClassGrammar.Settings

inductive Json where
  | null
  | bool (b : Bool)
  /-- A number as it is written. -/
  | number (literal : String)
  /-- A string. It has no text when half of a surrogate pair stands alone in it. -/
  | string (text : Option String)
  | array (items : List Json)
  | object (members : List (Option String × Json))

namespace Json

inductive Token where
  | openArray
  | closeArray
  | openObject
  | closeObject
  | comma
  | colon
  | string (text : Option String)
  /-- A value of one word: a number, a truth value or null. -/
  | word (value : Json)

def isBlank (c : Char) : Bool := c == ' ' || c == '\t' || c == '\n' || c == '\r'

/-- The number of four hexadecimal digits. -/
def hexUnit? (cs : List Char) : Option Nat :=
  match cs.mapM (Text.digitIn? 16) with
  | some [a, b, c, d] => some (((16 * a + b) * 16 + c) * 16 + d)
  | _ => none

/-- The character for the letter of a short escape. -/
def escape? (c : Char) : Option Char :=
  match c with
  | '\x22' => some c
  | '\\' => some c
  | '/' => some c
  | 'b' => some '\x08'
  | 'f' => some '\x0C'
  | 'n' => some '\n'
  | 'r' => some '\r'
  | 't' => some '\t'
  | _ => none

/-- The second half of a surrogate pair, written as an escape at the start of the text. -/
def lowUnit? (cs : List Char) : Option Nat :=
  match cs with
  | '\\' :: 'u' :: rest =>
      (hexUnit? (rest.take 4)).filter fun unit => 0xDC00 ≤ unit && unit < 0xE000
  | _ => none

/-- The character of an escape after its backslash, and its length. The two halves of a surrogate
pair make one character; a half that stands alone makes none. -/
def escaped? (cs : List Char) : Option (Option Char × Nat) :=
  match cs with
  | 'u' :: rest => do
      let unit ← hexUnit? (rest.take 4)
      if 0xD800 ≤ unit ∧ unit < 0xDC00 then
        match lowUnit? (rest.drop 4) with
        | some low =>
            some (some (Char.ofNat (0x10000 + (unit - 0xD800) * 0x400 + (low - 0xDC00))), 11)
        | none => some (none, 5)
      else if 0xDC00 ≤ unit ∧ unit < 0xE000 then some (none, 5)
      else some (some (Char.ofNat unit), 5)
  | c :: _ => (escape? c).map fun c => (some c, 1)
  | [] => none

/-- The characters of a string after its opening quote, and its length with the closing quote. -/
def stringBody? (cs : List Char) : Option (List (Option Char) × Nat) :=
  match cs with
  | [] => none
  | c :: rest =>
      if c = '\x22' then some ([], 1)
      else if c = '\\' then
        match escaped? rest with
        | some (e, used) =>
            (stringBody? (rest.drop used)).map fun r => (e :: r.1, r.2 + used + 1)
        | none => none
      else if c.toNat < 0x20 then none
      else (stringBody? rest).map fun r => (some c :: r.1, r.2 + 1)
termination_by cs.length
decreasing_by all_goals simp only [List.length_cons, List.length_drop]; omega

def digits (cs : List Char) : Nat := (cs.takeWhile Char.isDigit).length

/-- The length of a decimal part, which is empty or a point with digits. -/
def fraction? (cs : List Char) : Option Nat :=
  match cs with
  | '.' :: rest => if digits rest = 0 then none else some (digits rest + 1)
  | _ => some 0

/-- The length of an exponent, which is empty or a letter, a sign at will, and digits. -/
def exponent? (cs : List Char) : Option Nat :=
  match cs with
  | c :: rest =>
      if c = 'e' ∨ c = 'E' then
        let sign := if rest.head? = some '+' ∨ rest.head? = some '-' then 1 else 0
        let n := digits (rest.drop sign)
        if n = 0 then none else some (1 + sign + n)
      else some 0
  | [] => some 0

/-- The length of the number at the start of the text. Its whole part has no leading zero. -/
def number? (cs : List Char) : Option Nat := do
  let sign := if cs.head? = some '-' then 1 else 0
  let rest := cs.drop sign
  let whole := if rest.head? = some '0' then 1 else digits rest
  if whole = 0 ∨ (rest.head? = some '0' ∧ 1 < digits rest) then none
  else do
    let f ← fraction? (rest.drop whole)
    let e ← exponent? (rest.drop (whole + f))
    return sign + whole + f + e

/-- The text of a string, if every one of its characters is known. -/
def textOf (characters : List (Option Char)) : Option String :=
  (characters.mapM id).map String.ofList

/-- The token at the start of a text that starts with no blank, and its length. -/
def token? (cs : List Char) : Option (Token × Nat) :=
  match cs with
  | '[' :: _ => some (.openArray, 1)
  | ']' :: _ => some (.closeArray, 1)
  | '\x7b' :: _ => some (.openObject, 1)
  | '\x7d' :: _ => some (.closeObject, 1)
  | ',' :: _ => some (.comma, 1)
  | ':' :: _ => some (.colon, 1)
  | '\x22' :: rest => (stringBody? rest).map fun r => (.string (textOf r.1), r.2 + 1)
  | 'n' :: 'u' :: 'l' :: 'l' :: _ => some (.word .null, 4)
  | 't' :: 'r' :: 'u' :: 'e' :: _ => some (.word (.bool true), 4)
  | 'f' :: 'a' :: 'l' :: 's' :: 'e' :: _ => some (.word (.bool false), 5)
  | _ => (number? cs).map fun n => (.word (.number (String.ofList (cs.take n))), n)

/-- The tokens of a text. -/
def tokens? (cs : List Char) : Option (List Token) :=
  match cs with
  | [] => some []
  | c :: rest =>
      if isBlank c then tokens? rest
      else match token? (c :: rest) with
        | some (t, used) => (tokens? (rest.drop (used - 1))).map (t :: ·)
        | none => none
termination_by cs.length
decreasing_by all_goals simp only [List.length_cons, List.length_drop]; omega

/-- An open array or object with its finished parts, the last one first. -/
inductive Frame where
  | array (items : List Json)
  | object (members : List (Option String × Json)) (key : Option String)

/-- What the next token may be. -/
inductive Expect where
  | value
  /-- A value, or the end of an array that was just opened. -/
  | firstItem
  | key
  /-- A key, or the end of an object that was just opened. -/
  | firstKey
  | colon
  /-- A comma, or the end of the innermost array or object. -/
  | next
  | done (value : Json)

structure Assembly where
  frames : List Frame := []
  expect : Expect := .value

namespace Assembly

/-- Puts a finished value into the innermost open array or object. -/
def put (frames : List Frame) (v : Json) : Assembly :=
  match frames with
  | [] => ⟨[], .done v⟩
  | .array items :: outer => ⟨.array (v :: items) :: outer, .next⟩
  | .object members key :: outer => ⟨.object ((key, v) :: members) key :: outer, .next⟩

/-- A token where a value may stand. -/
def value? (frames : List Frame) : Token → Option Assembly
  | .openArray => some ⟨.array [] :: frames, .firstItem⟩
  | .openObject => some ⟨.object [] none :: frames, .firstKey⟩
  | .string s => some (put frames (.string s))
  | .word v => some (put frames v)
  | _ => none

/-- A token where a key has to stand. -/
def key? (frames : List Frame) : Token → Option Assembly
  | .string s => match frames with
    | .object members _ :: outer => some ⟨.object members s :: outer, .colon⟩
    | _ => none
  | _ => none

/-- The end of the innermost open array or object. -/
def close? (frames : List Frame) : Token → Option Assembly
  | .closeArray => match frames with
    | .array items :: outer => some (put outer (.array items.reverse))
    | _ => none
  | .closeObject => match frames with
    | .object members _ :: outer => some (put outer (.object members.reverse))
    | _ => none
  | _ => none

def step? (a : Assembly) (t : Token) : Option Assembly :=
  match a.expect with
  | .value => value? a.frames t
  | .firstItem => (close? a.frames t).or (value? a.frames t)
  | .key => key? a.frames t
  | .firstKey => (close? a.frames t).or (key? a.frames t)
  | .colon => match t with
    | .colon => some { a with expect := .value }
    | _ => none
  | .next => match t, a.frames with
    | .comma, .array _ :: _ => some { a with expect := .value }
    | .comma, .object _ _ :: _ => some { a with expect := .key }
    | _, _ => close? a.frames t
  | .done _ => none

def run? (a : Assembly) : List Token → Option Assembly
  | [] => some a
  | t :: rest => (a.step? t).bind (run? · rest)

end Assembly

/-- The value of a JSON text. -/
def parse? (s : String) : Option Json := do
  let tokens ← tokens? s.toList
  let a ← Assembly.run? {} tokens
  match a.expect with
  | .done v => some v
  | _ => none

/-- The text that a field takes from a value. A policy may also be the only key of an object
whose value is null. -/
def fieldText? (f : Field) : Json → Option String
  | .string text => text
  | .object [(name, .null)] => if f.isPolicy then name else none
  | _ => none

/-- The known members of an object. Every key has to have a text. -/
def fields? : List (Option String × Json) → Option (List (Field × String))
  | [] => some []
  | (none, _) :: _ => none
  | (some key, v) :: rest => match Field.ofKey? key with
    | none => fields? rest
    | some f => do
        let s ← fieldText? f v
        let more ← fields? rest
        return (f, s) :: more

/-- The items of an array, in the order of the fields. -/
def positional? : List Field → List Json → Option (List (Field × String))
  | _, [] => some []
  | [], _ :: _ => none
  | f :: fs, v :: vs => do
      let s ← fieldText? f v
      let more ← positional? fs vs
      return (f, s) :: more

def settings? (v : Json) : Option Settings :=
  match v with
  | .object members => (fields? members).bind Settings.ofFields?
  | .array items => (positional? Field.all items).bind Settings.ofFields?
  | _ => none

end Json

/-- The settings in a JSON text. -/
def ofJson? (s : String) : Option Settings := (Json.parse? s).bind Json.settings?

end ClassGrammar.Settings
