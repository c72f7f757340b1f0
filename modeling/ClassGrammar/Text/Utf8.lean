/-! Reading bytes as UTF-8 text. A failure tells where the valid part ends and how many bytes
of the ill-formed sequence could still have begun a character. -/
namespace ClassGrammar

abbrev Bytes := List UInt8

namespace Text

/-- The first `validUpTo` bytes are text. The sequence after them is ill-formed in its first
`badLength` bytes, or is cut off by the end of the input. -/
structure Utf8Fault where
  validUpTo : Nat
  badLength : Option Nat
  deriving DecidableEq, Repr

def Utf8Fault.message (f : Utf8Fault) : String :=
  match f.badLength with
  | some n => s!"invalid utf-8 sequence of {n} bytes from index {f.validUpTo}"
  | none => s!"incomplete utf-8 byte sequence from index {f.validUpTo}"

/-- What may follow a leading byte: the range of the second byte, the number of continuation
bytes after it, and the payload bits of the leading byte. -/
structure Lead where
  low : UInt8
  high : UInt8
  more : Nat
  payload : Nat
  deriving DecidableEq, Repr

/-- The leading bytes of characters of two bytes and more. Overlong forms, surrogates and code
points above the last one are excluded by the range of the second byte. -/
def lead? (b : UInt8) : Option Lead :=
  if 0xC2 ≤ b ∧ b ≤ 0xDF then some ⟨0x80, 0xBF, 0, b.toNat - 0xC0⟩
  else if b = 0xE0 then some ⟨0xA0, 0xBF, 1, 0⟩
  else if b = 0xED then some ⟨0x80, 0x9F, 1, 0x0D⟩
  else if 0xE1 ≤ b ∧ b ≤ 0xEF then some ⟨0x80, 0xBF, 1, b.toNat - 0xE0⟩
  else if b = 0xF0 then some ⟨0x90, 0xBF, 2, 0⟩
  else if 0xF1 ≤ b ∧ b ≤ 0xF3 then some ⟨0x80, 0xBF, 2, b.toNat - 0xF0⟩
  else if b = 0xF4 then some ⟨0x80, 0x8F, 2, 4⟩
  else none

/-- Reads the rest of a character: `low` and `high` bound the next byte, `more` continuation
bytes follow it, `taken` bytes were read before, and their payload is `code`. -/
def continuation (start : Nat) (low high : UInt8) (taken code : Nat) :
    Nat → Bytes → Except Utf8Fault Nat
  | _, [] => .error ⟨start, none⟩
  | more, b :: rest =>
      if low ≤ b ∧ b ≤ high then
        match more with
        | 0 => .ok (code * 64 + (b.toNat - 0x80))
        | more + 1 =>
            continuation start 0x80 0xBF (taken + 1) (code * 64 + (b.toNat - 0x80)) more rest
      else .error ⟨start, some taken⟩

/-- The characters of the input from offset `pos`; `skip` bytes belong to the character read
before. -/
def decodeFrom (pos : Nat) : Nat → Bytes → Except Utf8Fault (List Char)
  | _, [] => .ok []
  | skip + 1, _ :: rest => decodeFrom (pos + 1) skip rest
  | 0, b :: rest =>
      if b < 0x80 then do
        let cs ← decodeFrom (pos + 1) 0 rest
        .ok (Char.ofNat b.toNat :: cs)
      else match lead? b with
        | none => .error ⟨pos, some 1⟩
        | some l => do
            let code ← continuation pos l.low l.high 1 l.payload l.more rest
            let cs ← decodeFrom (pos + 1) (l.more + 1) rest
            .ok (Char.ofNat code :: cs)

/-- The text that the bytes encode. -/
def decodeUtf8 (bytes : Bytes) : Except Utf8Fault String :=
  (decodeFrom 0 0 bytes).map String.ofList

/-- The number of bytes that encode the characters. -/
def encodedSize : List Char → Nat
  | [] => 0
  | c :: cs => c.utf8Size + encodedSize cs

/-- The bytes that encode the text. -/
def encodeUtf8 (s : String) : Bytes := s.toList.flatMap String.utf8EncodeChar

end Text
end ClassGrammar
