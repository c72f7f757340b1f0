import ClassGrammar.Settings.Yaml.Scalar

/-! The tokens of a text in plain YAML, which is YAML without folded scalars, anchors, aliases, tags
and directives. Indentation opens and closes block collections; a scalar or flow collection turns
out to be a key when a colon follows it, and its key token is then inserted before it. -/
namespace ClassGrammar.Settings.Yaml

inductive Token where
  | documentStart
  | documentEnd
  | blockSequence
  | blockMapping
  | blockEnd
  | openSequence
  | closeSequence
  | openMapping
  | closeMapping
  | comma
  | item
  | key
  | value
  | scalar (text : String) (isPlain : Bool)
  deriving DecidableEq, Repr

/-- A place where a key may have started. -/
structure Candidate where
  /-- Whether nothing but a key may stand there. -/
  isRequired : Bool
  /-- The number of tokens before it. -/
  token : Nat
  mark : Mark

structure Scanner where
  rest : List Char
  mark : Mark := {}
  tokens : Array Token := #[]
  /-- One more than the column of the innermost block collection, zero outside of all. -/
  margin : Nat := 0
  /-- The margins of the block collections around it. -/
  margins : List Nat := []
  /-- For each open flow collection, innermost first, and for the block around them: the place
  where a key may have started last. -/
  candidates : List (Option Candidate) := [none]
  keyAllowed : Bool := true

namespace Scanner

/-- Whether a flow collection is open. -/
def inFlow (s : Scanner) : Bool := !(s.candidates.drop 1).isEmpty

def push (s : Scanner) (t : Token) : Scanner := { s with tokens := s.tokens.push t }

/-- Passes over `n` characters of the line. -/
def skip (s : Scanner) (n : Nat) : Scanner :=
  { s with rest := s.rest.drop n, mark := s.mark.past (s.rest.take n) }

/-- Gives up the innermost place where a key may have started, unless a key is required there. -/
def dropCandidate (s : Scanner) : Option Scanner :=
  match s.candidates with
  | some c :: outer => if c.isRequired then none else some { s with candidates := none :: outer }
  | _ => some s

/-- Notes that a key may start here. -/
def noteCandidate (s : Scanner) : Option Scanner :=
  if s.keyAllowed then do
    let c : Candidate := ⟨!s.inFlow && s.margin == s.mark.column + 1, s.tokens.size, s.mark⟩
    let s ← s.dropCandidate
    return { s with candidates := some c :: s.candidates.drop 1 }
  else some s

/-- The greatest number of bytes in a key that is not marked as one. -/
def maxKeyLength : Nat := 1024

/-- Gives up the places from which a key would reach over a line or be too long. -/
def dropStale (m : Mark) : List (Option Candidate) → Option (List (Option Candidate))
  | [] => some []
  | none :: rest => (dropStale m rest).map (none :: ·)
  | some c :: rest =>
      if c.mark.line < m.line ∨ c.mark.offset + maxKeyLength < m.offset then
        if c.isRequired then none else (dropStale m rest).map (none :: ·)
      else (dropStale m rest).map (some c :: ·)

/-- The number of margins above a limit, then the margin and margins that remain. -/
def unrolled (limit margin : Nat) : List Nat → Nat × Nat × List Nat
  | [] => if limit < margin then (1, 0, []) else (0, margin, [])
  | outer :: rest =>
      if limit < margin then
        let r := unrolled limit outer rest
        (r.1 + 1, r.2)
      else (0, margin, outer :: rest)

/-- Closes the block collections whose margins are above a limit. -/
def closeBlocks (s : Scanner) (limit : Nat) : Scanner :=
  if s.inFlow then s
  else
    let r := unrolled limit s.margin s.margins
    { s with
      tokens := s.tokens ++ Array.replicate r.1 .blockEnd
      margin := r.2.1
      margins := r.2.2 }

/-- Opens a block collection at a column unless one is open there; its token goes before the
token at `position`. -/
def openBlock (s : Scanner) (column position : Nat) (t : Token) : Scanner :=
  if !s.inFlow ∧ s.margin ≤ column then
    { s with
      tokens := s.tokens.insertIdxIfInBounds position t
      margin := column + 1
      margins := s.margin :: s.margins }
  else s

/-- Passes over blanks, comments and line breaks. A line break allows a key in block context,
and there a tab may not stand where a key may. -/
def toToken (s : Scanner) (inComment : Bool) (m : Mark) (keyAllowed : Bool) (cs : List Char) :
    Scanner :=
  match cs with
  | [] => { s with rest := [], mark := m, keyAllowed := keyAllowed }
  | c :: rest =>
      if isBreak c then
        let n := breakLength (c :: rest)
        s.toToken false m.newLine (keyAllowed || !s.inFlow) (rest.drop (n - 1))
      else if inComment ∨ c = '#' then s.toToken true (m.past [c]) keyAllowed rest
      else if c = ' ' ∨ (c = '\t' ∧ (s.inFlow ∨ !keyAllowed)) ∨
          (m.column = 0 ∧ c.val = 0xFEFF) then
        s.toToken false (m.past [c]) keyAllowed rest
      else { s with rest := c :: rest, mark := m, keyAllowed := keyAllowed }
termination_by cs.length
decreasing_by all_goals simp only [List.length_cons, List.length_drop]; omega

def documentMark (s : Scanner) (t : Token) : Option Scanner := do
  let s ← (s.closeBlocks 0).dropCandidate
  return ({ s with keyAllowed := false }.skip 3).push t

def openFlow (s : Scanner) (t : Token) : Option Scanner := do
  let s ← s.noteCandidate
  return ({ s with candidates := none :: s.candidates, keyAllowed := true }.skip 1).push t

def closeFlow (s : Scanner) (t : Token) : Option Scanner := do
  let s ← s.dropCandidate
  let candidates := if s.inFlow then s.candidates.drop 1 else s.candidates
  return ({ s with candidates := candidates, keyAllowed := false }.skip 1).push t

def comma (s : Scanner) : Option Scanner := do
  let s ← s.dropCandidate
  return ({ s with keyAllowed := true }.skip 1).push .comma

/-- Opens a block collection here for an item, a marked key or a value without a key. -/
def openHere (s : Scanner) (t : Token) : Option Scanner :=
  if s.inFlow then some s
  else if s.keyAllowed then some (s.openBlock s.mark.column s.tokens.size t)
  else none

def item (s : Scanner) : Option Scanner := do
  let s ← s.openHere .blockSequence
  let s ← s.dropCandidate
  return ({ s with keyAllowed := true }.skip 1).push .item

def markedKey (s : Scanner) : Option Scanner := do
  let s ← s.openHere .blockMapping
  let s ← s.dropCandidate
  return ({ s with keyAllowed := !s.inFlow }.skip 1).push .key

def value (s : Scanner) : Option Scanner :=
  match s.candidates with
  | some c :: outer =>
      let s := { s with
        tokens := s.tokens.insertIdxIfInBounds c.token .key
        candidates := none :: outer
        keyAllowed := false }
      some (((s.openBlock c.mark.column c.token .blockMapping).skip 1).push .value)
  | _ => do
      let s ← s.openHere .blockMapping
      return ({ s with keyAllowed := !s.inFlow }.skip 1).push .value

/-- Adds a scalar that was read. -/
def scalar (s : Scanner) (keyAllowed isPlain : Bool) (r : Scanned) : Scanner :=
  { s with rest := r.rest, mark := r.mark, keyAllowed := keyAllowed }.push
    (.scalar (String.ofList r.text) isPlain)

def quotedScalar (s : Scanner) (quote : Char) : Option Scanner := do
  let s ← s.noteCandidate
  let r ← quoted quote [] .none (s.mark.past [quote]) (s.rest.drop 1)
  return s.scalar false false r

def plainScalar (s : Scanner) : Option Scanner := do
  let s ← s.noteCandidate
  let r ← plain s.inFlow s.margin [] .none s.mark s.rest
  return s.scalar r.passedLine true r

def literalScalar (s : Scanner) : Option Scanner := do
  let s ← s.dropCandidate
  let r ← literal s.margin (s.skip 1).mark (s.rest.drop 1)
  return s.scalar true false r

/-- The characters that start no plain scalar. -/
def isIndicator (c : Char) : Bool := "-?:,[]\x7b\x7d#&*!|>'\"%@`".toList.contains c

/-- Takes the token at the start of the text, which starts with `c`. -/
def take (s : Scanner) (c : Char) : Option Scanner :=
  let more := s.rest.drop 1
  if s.mark.column = 0 ∧ c = '%' then none
  else if s.mark.column = 0 ∧ isTriple '-' s.rest then s.documentMark .documentStart
  else if s.mark.column = 0 ∧ isTriple '.' s.rest then s.documentMark .documentEnd
  else if c = '[' then s.openFlow .openSequence
  else if c = '\x7b' then s.openFlow .openMapping
  else if c = ']' then s.closeFlow .closeSequence
  else if c = '\x7d' then s.closeFlow .closeMapping
  else if c = ',' then s.comma
  else if c = '-' ∧ endsWord more then s.item
  else if c = '?' ∧ (s.inFlow ∨ endsWord more) then s.markedKey
  else if c = ':' ∧ (s.inFlow ∨ endsWord more) then s.value
  else if c = '|' ∧ !s.inFlow then s.literalScalar
  else if c = '\x27' ∨ c = '\x22' then s.quotedScalar c
  else if isBlank c then none
  else if !isIndicator c ∨ (c = '-' ∧ !more.head?.any isBlank) ∨
      (!s.inFlow ∧ (c = '?' ∨ c = ':') ∧ !endsWord more) then s.plainScalar
  else none

/-- All tokens of the text. Each of them takes at least one character. -/
def run (s : Scanner) : Option (List Token) := do
  let t := s.toToken false s.mark s.keyAllowed s.rest
  let candidates ← dropStale t.mark t.candidates
  let t := { t with candidates := candidates }.closeBlocks (t.mark.column + 1)
  match t.rest with
  | [] => (t.closeBlocks 0).dropCandidate.map (·.tokens.toList)
  | c :: _ => do
      let u ← t.take c
      if u.rest.length < s.rest.length then u.run else none
termination_by s.rest.length

end Scanner

/-- The tokens of a text. -/
def tokens? (cs : List Char) : Option (List Token) :=
  if cs.all isAllowed then Scanner.run { rest := cs } else none

end ClassGrammar.Settings.Yaml
