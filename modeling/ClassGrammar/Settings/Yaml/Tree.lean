import ClassGrammar.Settings.Field
import ClassGrammar.Settings.Yaml.Token

/-! Values in plain YAML, assembled from tokens with a stack of open collections. A node that is
left out where a key, a value or an item may stand is an empty plain scalar. -/
namespace ClassGrammar.Settings

inductive Yaml where
  | scalar (text : String) (isPlain : Bool)
  | sequence (items : List Yaml)
  | mapping (members : List (Yaml × Yaml))

namespace Yaml

def empty : Yaml := scalar "" true

/-- What an open mapping waits for. -/
inductive Part where
  /-- The token of a key, or the end. -/
  | key
  /-- The node of a key. -/
  | keyNode
  /-- The token of the value of a key. -/
  | value (key : Yaml)
  /-- The node of the value of a key. -/
  | valueNode (key : Yaml)

/-- What an open flow collection waits for. -/
inductive Turn where
  /-- An entry, or the end. -/
  | entry
  /-- A comma, or the end. -/
  | comma

/-- An open collection with its finished parts, the last one first. -/
inductive Frame where
  /-- A block sequence; `isOpen` tells whether the node of an item is awaited. A flat one is as
  deep as the mapping around it and ends without a token of its own. -/
  | items (isFlat : Bool) (done : List Yaml) (isOpen : Bool)
  | members (done : List (Yaml × Yaml)) (part : Part)
  | flowItems (done : List Yaml) (turn : Turn)
  /-- A mapping with one member in a flow sequence. -/
  | pair (part : Part)
  | flowMembers (done : List (Yaml × Yaml)) (turn : Turn)
  /-- A flow mapping in the middle of a member. -/
  | flowMember (done : List (Yaml × Yaml)) (part : Part)

/-- How much of the document has been read when no collection is open. -/
inductive Phase where
  | start
  /-- After the mark of a start. -/
  | opened
  | root (value : Yaml)
  /-- After the mark of an end. -/
  | ended (value : Yaml)

structure Assembly where
  frames : List Frame := []
  phase : Phase := .start

namespace Assembly

/-- Puts a finished node into the innermost open collection. -/
def fill (phase : Phase) (v : Yaml) : List Frame → Option Assembly
  | [] => some ⟨[], .root v⟩
  | .items isFlat done _ :: outer => some ⟨.items isFlat (v :: done) false :: outer, phase⟩
  | .members done .keyNode :: outer => some ⟨.members done (.value v) :: outer, phase⟩
  | .members done (.valueNode k) :: outer => some ⟨.members ((k, v) :: done) .key :: outer, phase⟩
  | .members _ _ :: _ => none
  | .flowItems done _ :: outer => some ⟨.flowItems (v :: done) .comma :: outer, phase⟩
  | .pair .keyNode :: outer => some ⟨.pair (.value v) :: outer, phase⟩
  | .pair (.valueNode k) :: outer => fill phase (.mapping [(k, v)]) outer
  | .pair _ :: _ => none
  | .flowMembers done _ :: outer => some ⟨.flowMembers ((v, empty) :: done) .comma :: outer, phase⟩
  | .flowMember done .keyNode :: outer => some ⟨.flowMember done (.value v) :: outer, phase⟩
  | .flowMember done (.valueNode k) :: outer =>
      some ⟨.flowMembers ((k, v) :: done) .comma :: outer, phase⟩
  | .flowMember _ _ :: _ => none

/-- Where a node stands, which decides the forms that it may take. -/
inductive Site where
  | flow
  | block
  /-- As key or value of a block mapping, where a sequence needs no indentation. -/
  | member
  deriving DecidableEq

/-- A token at the start of a node. -/
def node (site : Site) (phase : Phase) (frames : List Frame) (t : Token) : Option Assembly :=
  match t with
  | .scalar text isPlain => fill phase (.scalar text isPlain) frames
  | .openSequence => some ⟨.flowItems [] .entry :: frames, phase⟩
  | .openMapping => some ⟨.flowMembers [] .entry :: frames, phase⟩
  | .blockSequence => if site = .flow then none else some ⟨.items false [] false :: frames, phase⟩
  | .blockMapping => if site = .flow then none else some ⟨.members [] .key :: frames, phase⟩
  | .item => if site = .member then some ⟨.items true [] true :: frames, phase⟩ else none
  | _ => none

def atKey (phase : Phase) (outer : List Frame) (done : List (Yaml × Yaml)) (t : Token) :
    Option Assembly :=
  match t with
  | .key => some ⟨.members done .keyNode :: outer, phase⟩
  | .blockEnd => fill phase (.mapping done.reverse) outer
  | _ => none

def atValue (phase : Phase) (outer : List Frame) (done : List (Yaml × Yaml)) (k : Yaml)
    (t : Token) : Option Assembly :=
  match t with
  | .value => some ⟨.members done (.valueNode k) :: outer, phase⟩
  | _ => atKey phase outer ((k, empty) :: done) t

/-- Whether the token leaves out the node of a member of a block mapping. -/
def endsMember (t : Token) : Bool := t == .key || t == .value || t == .blockEnd

def members (phase : Phase) (outer : List Frame) (done : List (Yaml × Yaml)) (part : Part)
    (t : Token) : Option Assembly :=
  match part with
  | .key => atKey phase outer done t
  | .keyNode =>
      if endsMember t then atValue phase outer done empty t
      else node .member phase (.members done .keyNode :: outer) t
  | .value k => atValue phase outer done k t
  | .valueNode k =>
      if endsMember t then atKey phase outer ((k, empty) :: done) t
      else node .member phase (.members done (.valueNode k) :: outer) t

/-- The end of a flat sequence; the token belongs to the mapping around it. -/
def closeFlat (phase : Phase) (done : List Yaml) (outer : List Frame) (t : Token) :
    Option Assembly :=
  match outer with
  | .members members .keyNode :: outer => atValue phase outer members (.sequence done.reverse) t
  | .members members (.valueNode k) :: outer =>
      atKey phase outer ((k, .sequence done.reverse) :: members) t
  | _ => none

def items (phase : Phase) (outer : List Frame) (isFlat : Bool) (done : List Yaml) (isOpen : Bool)
    (t : Token) : Option Assembly :=
  let done' := if isOpen then empty :: done else done
  if t = .item then some ⟨.items isFlat done' true :: outer, phase⟩
  else if isFlat then
    if isOpen && !endsMember t then node .block phase (.items true done true :: outer) t
    else closeFlat phase done' outer t
  else if t = .blockEnd then fill phase (.sequence done'.reverse) outer
  else if isOpen then node .block phase (.items false done true :: outer) t
  else none

def afterItem (phase : Phase) (outer : List Frame) (done : List Yaml) (t : Token) :
    Option Assembly :=
  match t with
  | .comma => some ⟨.flowItems done .entry :: outer, phase⟩
  | .closeSequence => fill phase (.sequence done.reverse) outer
  | _ => none

def flowItems (phase : Phase) (outer : List Frame) (done : List Yaml) (turn : Turn) (t : Token) :
    Option Assembly :=
  match turn, t with
  | .comma, _ => afterItem phase outer done t
  | .entry, .closeSequence => fill phase (.sequence done.reverse) outer
  | .entry, .key => some ⟨.pair .keyNode :: .flowItems done .entry :: outer, phase⟩
  | .entry, _ => node .flow phase (.flowItems done .entry :: outer) t

/-- Whether the token leaves out the node of a value in a flow collection. -/
def endsEntry (t : Token) : Bool := t == .comma || t == .closeSequence || t == .closeMapping

/-- The end of a pair without a value; the token belongs to the sequence around it. -/
def closePair (phase : Phase) (k : Yaml) (outer : List Frame) (t : Token) : Option Assembly :=
  match outer with
  | .flowItems done _ :: outer => afterItem phase outer (.mapping [(k, empty)] :: done) t
  | _ => none

/-- A token that leaves out the key of a pair is passed over with it. -/
def pair (phase : Phase) (outer : List Frame) (part : Part) (t : Token) : Option Assembly :=
  match part, t with
  | .keyNode, _ =>
      if t = .value ∨ t = .comma ∨ t = .closeSequence then
        some ⟨.pair (.value empty) :: outer, phase⟩
      else node .flow phase (.pair .keyNode :: outer) t
  | .value k, .value => some ⟨.pair (.valueNode k) :: outer, phase⟩
  | .value k, _ => closePair phase k outer t
  | .valueNode k, _ =>
      if endsEntry t then closePair phase k outer t
      else node .flow phase (.pair (.valueNode k) :: outer) t
  | .key, _ => none

def afterMember (phase : Phase) (outer : List Frame) (done : List (Yaml × Yaml)) (t : Token) :
    Option Assembly :=
  match t with
  | .comma => some ⟨.flowMembers done .entry :: outer, phase⟩
  | .closeMapping => fill phase (.mapping done.reverse) outer
  | _ => none

def flowMembers (phase : Phase) (outer : List Frame) (done : List (Yaml × Yaml)) (turn : Turn)
    (t : Token) : Option Assembly :=
  match turn, t with
  | .comma, _ => afterMember phase outer done t
  | .entry, .closeMapping => fill phase (.mapping done.reverse) outer
  | .entry, .key => some ⟨.flowMember done .keyNode :: outer, phase⟩
  | .entry, _ => node .flow phase (.flowMembers done .entry :: outer) t

def memberValue (phase : Phase) (outer : List Frame) (done : List (Yaml × Yaml)) (k : Yaml)
    (t : Token) : Option Assembly :=
  match t with
  | .value => some ⟨.flowMember done (.valueNode k) :: outer, phase⟩
  | _ => afterMember phase outer ((k, empty) :: done) t

def flowMember (phase : Phase) (outer : List Frame) (done : List (Yaml × Yaml)) (part : Part)
    (t : Token) : Option Assembly :=
  match part with
  | .key => none
  | .keyNode =>
      if t = .value ∨ endsEntry t then memberValue phase outer done empty t
      else node .flow phase (.flowMember done .keyNode :: outer) t
  | .value k => memberValue phase outer done k t
  | .valueNode k =>
      if endsEntry t then afterMember phase outer ((k, empty) :: done) t
      else node .flow phase (.flowMember done (.valueNode k) :: outer) t

/-- A token outside all collections. There is one document at most. -/
def document (phase : Phase) (t : Token) : Option Assembly :=
  match phase, t with
  | .start, .documentStart => some ⟨[], .opened⟩
  | .start, _ => node .block .start [] t
  | .opened, .documentEnd => some ⟨[], .ended empty⟩
  | .opened, _ => node .block .opened [] t
  | .root v, .documentEnd => some ⟨[], .ended v⟩
  | .ended v, .documentEnd => some ⟨[], .ended v⟩
  | _, _ => none

def step? (a : Assembly) (t : Token) : Option Assembly :=
  match a.frames with
  | [] => document a.phase t
  | .items isFlat done isOpen :: outer => items a.phase outer isFlat done isOpen t
  | .members done part :: outer => members a.phase outer done part t
  | .flowItems done turn :: outer => flowItems a.phase outer done turn t
  | .pair part :: outer => pair a.phase outer part t
  | .flowMembers done turn :: outer => flowMembers a.phase outer done turn t
  | .flowMember done part :: outer => flowMember a.phase outer done part t

def run? (a : Assembly) : List Token → Option Assembly
  | [] => some a
  | t :: rest => (a.step? t).bind (run? · rest)

end Assembly

/-- The document of a text; a text without a document counts as an empty one. -/
def parse? (s : String) : Option Yaml := do
  let tokens ← tokens? s.toList
  let a ← Assembly.run? {} tokens
  match a.frames, a.phase with
  | [], .start => some empty
  | [], .opened => some empty
  | [], .root v => some v
  | [], .ended v => some v
  | _, _ => none

/-- The known members of a mapping. Every key has to be a scalar, and a field takes a scalar. -/
def fields? : List (Yaml × Yaml) → Option (List (Field × String))
  | [] => some []
  | (.scalar key _, v) :: rest => match Field.ofKey? key, v with
    | none, _ => fields? rest
    | some f, .scalar value _ => (fields? rest).map ((f, value) :: ·)
    | some _, _ => none
  | _ :: _ => none

def settings? (v : Yaml) : Option Settings :=
  match v with
  | .mapping members => (fields? members).bind Settings.ofFields?
  | .scalar "" true => some {}
  | _ => none

end Yaml

/-- The settings in a text of plain YAML. An empty document leaves all defaults. -/
def ofYaml? (s : String) : Option Settings := (Yaml.parse? s).bind Yaml.settings?

end ClassGrammar.Settings
