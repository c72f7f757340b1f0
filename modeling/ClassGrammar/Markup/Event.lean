import ClassGrammar.Markup.Piece
import ClassGrammar.Markup.Reference

/-! What a document says, tag by tag: names and attributes as text. -/
namespace ClassGrammar.Markup

inductive Event where
  | opening (tag : String) (attributes : List (String × String))
  /-- An element without content, opened and closed by one tag. -/
  | childless (tag : String) (attributes : List (String × String))
  | closing
  /-- Text, comments and the like, which say nothing to a reader of elements. -/
  | ignored
  | broken (fault : DocumentFault)
  deriving DecidableEq, Repr

/-- The number of bytes before the first one that is no space. -/
def spaces (bytes : Bytes) : Nat := (bytes.takeWhile isSpace).length

/-- The length of the key at the start of the bytes. Its first byte may be any. -/
def keyLength (bytes : Bytes) : Nat :=
  1 + (bytes.tail.takeWhile fun b => !(isSpace b || b == byte '=')).length

/-- The raw key and value of the attribute that starts at a position of the tag, and the position
after it. `seen` are the keys before it, with their positions. -/
def rawAttribute (content : Bytes) (seen : List (Bytes × Nat)) (position : Nat) :
    Except AttributeFault (Bytes × Bytes × Nat) :=
  let rest := content.drop position
  let key := rest.take (keyLength rest)
  let afterKey := position + keyLength rest
  let equals := afterKey + spaces (content.drop afterKey)
  if content[equals]? ≠ some (byte '=') then .error (.missingEquals equals)
  else match seen.lookup key with
    | some previous => .error (.duplicate position previous)
    | none =>
        let opening := equals + 1 + spaces (content.drop (equals + 1))
        match content[opening]? with
        | none => .error (.missingValue content.length)
        | some q =>
            if q = byte '\x22' ∨ q = byte '\x27' then
              let value := (content.drop (opening + 1)).takeWhile (· ≠ q)
              let closing := opening + 1 + value.length
              if closing < content.length then .ok (key, value, closing + 1)
              else .error (.missingQuote content.length (Char.ofNat q.toNat))
            else .error (.unquotedValue opening)

def attributeText (key value : Bytes) : Except DocumentFault (String × String) := do
  let key ← (Text.decodeUtf8 key).mapError DocumentFault.attributeKey
  let value ← (Text.decodeUtf8 value).mapError DocumentFault.attributeText
  let value ← (replaceReferences value).mapError DocumentFault.attributeReference
  return (key, value)

theorem lt_of_rawAttribute {content : Bytes} {seen : List (Bytes × Nat)} {position next : Nat}
    {key value : Bytes} (h : rawAttribute content seen position = .ok (key, value, next)) :
    position < next ∧ next ≤ content.length := by
  simp only [rawAttribute] at h
  split at h
  · cases h
  · split at h
    · cases h
    · split at h
      · cases h
      · split at h
        · split at h
          · simp only [Except.ok.injEq, Prod.mk.injEq] at h
            omega
          · cases h
        · cases h

/-- The attributes from a position of the tag on. -/
def attributesFrom (content : Bytes) (seen : List (Bytes × Nat)) (position : Nat) :
    Except DocumentFault (List (String × String)) :=
  let start := position + spaces (content.drop position)
  if start < content.length then
    match _h : rawAttribute content seen start with
    | .error f => .error (.attributes f)
    | .ok (key, value, next) => do
        let a ← attributeText key value
        let more ← attributesFrom content ((key, start) :: seen) next
        return a :: more
  else .ok []
termination_by content.length - position
decreasing_by
  have := lt_of_rawAttribute _h
  omega

/-- The name and the attributes of a tag. -/
def tagText (content : Bytes) : Except DocumentFault (String × List (String × String)) := do
  let tag ← (Text.decodeUtf8 (tagName content)).mapError DocumentFault.tagName
  let attributes ← attributesFrom content [] (tagName content).length
  return (tag, attributes)

def Event.ofPiece : Piece → Event
  | .startTag content => match tagText content with
    | .ok (tag, attributes) => .opening tag attributes
    | .error f => .broken f
  | .emptyTag content => match tagText content with
    | .ok (tag, attributes) => .childless tag attributes
    | .error f => .broken f
  | .endTag => .closing
  | .ignored => .ignored
  | .broken position fault => .broken (.syntaxFault position fault)

/-- The events of a document. -/
def eventsOf (bytes : Bytes) : List Event := (piecesOf bytes).map Event.ofPiece

end ClassGrammar.Markup
