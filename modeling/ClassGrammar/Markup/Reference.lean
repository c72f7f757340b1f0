import ClassGrammar.Markup.Fault
import ClassGrammar.Text.Number

/-! References in attribute values. A reference is replaced by the character that it stands for;
the replacement is not read again. -/
namespace ClassGrammar.Markup

/-- Reads digits after the number `n`, which has to stay below the limit of 32 bits. -/
def numberFrom (base n : Nat) : List Char → Except NumberFault Nat
  | [] => .ok n
  | c :: cs => match Text.digitIn? base c with
    | none => .error .badDigit
    | some d =>
        if base * n + d < Text.wordLimit then numberFrom base (base * n + d) cs
        else .error .tooLarge

/-- The number of a character reference. -/
def numberIn (base : Nat) (digits : List Char) : Except NumberFault Nat :=
  match digits with
  | [] => .error .empty
  | c :: _ => if c = '+' ∨ c = '-' then .error .sign else numberFrom base 0 digits

/-- The character with a code point. -/
def characterOf (code : Nat) : Except NumberFault Char :=
  if code = 0 then .error .zero
  else if code.isValidChar then .ok (Char.ofNat code)
  else .error (.noCharacter code)

/-- The character that a reference after `#` stands for. -/
def numbered (digits : List Char) : Except NumberFault Char := do
  let code ← match digits with
    | 'x' :: hex => numberIn 16 hex
    | _ => numberIn 10 digits
  characterOf code

def entity? (name : String) : Option Char :=
  match name with
  | "lt" => some '<'
  | "gt" => some '>'
  | "amp" => some '&'
  | "apos" => some '\x27'
  | "quot" => some '\x22'
  | _ => none

/-- The character that a reference stands for; `first` is the position after its `&`. -/
def referenced (first : Nat) (name : List Char) : Except ReferenceFault Char :=
  match name with
  | '#' :: digits => (numbered digits).mapError ReferenceFault.number
  | _ => match entity? (String.ofList name) with
    | some c => .ok c
    | none => .error (.unknownEntity first (first + Text.encodedSize name) (String.ofList name))

/-- Replaces the references from a position on; `size` is the length of the whole value. -/
def replaceFrom (size position : Nat) (cs : List Char) : Except ReferenceFault (List Char) :=
  match cs with
  | [] => .ok []
  | c :: rest =>
      if c = '&' then
        let name := rest.takeWhile fun c => c ≠ ';' && c ≠ '&'
        if rest[name.length]? = some ';' then do
          let r ← referenced (position + 1) name
          let next := position + 2 + Text.encodedSize name
          let more ← replaceFrom size next (rest.drop (name.length + 1))
          return r :: more
        else .error (.notEnded position size)
      else do
        let more ← replaceFrom size (position + c.utf8Size) rest
        return c :: more
termination_by cs.length
decreasing_by all_goals simp only [List.length_cons, List.length_drop]; omega

/-- The value with its references replaced. -/
def replaceReferences (value : String) : Except ReferenceFault String :=
  (replaceFrom (Text.encodedSize value.toList) 0 value.toList).map String.ofList

end ClassGrammar.Markup
