/-! Reading numbers. -/
namespace ClassGrammar.Text

/-- The first number that does not fit in 32 bits. -/
def wordLimit : Nat := 4294967296

/-- The value of a digit in a base of at most sixteen. -/
def digitIn? (base : Nat) (c : Char) : Option Nat :=
  let value :=
    if '0' ≤ c ∧ c ≤ '9' then some (c.toNat - 48)
    else if 'a' ≤ c ∧ c ≤ 'f' then some (c.toNat - 87)
    else if 'A' ≤ c ∧ c ≤ 'F' then some (c.toNat - 55)
    else none
  value.filter (· < base)

def digit? (c : Char) : Option Nat :=
  if '0' ≤ c ∧ c ≤ '9' then some (c.toNat - 48) else none

/-- The number that a run of ASCII digits denotes, after `n`. It has to fit in 32 bits after each
digit. -/
def digitsFrom (n : Nat) : List Char → Option Nat
  | [] => some n
  | c :: cs => match digit? c with
    | some d => if 10 * n + d < wordLimit then digitsFrom (10 * n + d) cs else none
    | none => none

/-- The number denoted by at least one digit, after an optional plus sign. -/
def decimal? : List Char → Option Nat
  | '+' :: c :: cs => digitsFrom 0 (c :: cs)
  | c :: cs => digitsFrom 0 (c :: cs)
  | [] => none

/-- The number denoted by the text when it fits in 32 bits. -/
def word? (s : String) : Option Nat := decimal? s.toList

end ClassGrammar.Text
