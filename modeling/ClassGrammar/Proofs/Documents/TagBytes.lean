import ClassGrammar.Proofs.Nodes.DistinctKeys
import ClassGrammar.Proofs.General.Outcome
import Mathlib.Algebra.Group.Nat.Defs

/-! The names of tags stand in the bytes of a document: each is cut out of them as it is, and a name
of ASCII characters has no other bytes than its own. -/
namespace ClassGrammar

namespace Text

open Markup

/-- The characters below 128. The first one is left out, since it stands for codes of no character
as well. -/
def IsAscii (c : Char) : Prop := 0 < c.toNat ∧ c.toNat < 0x80

theorem toNat_ofNat (n : Nat) : (Char.ofNat n).toNat = if n.isValidChar then n else 0 := by
  by_cases h : n.isValidChar
  · rw [Char.ofNat, dif_pos h, if_pos h]
    rfl
  · rw [Char.ofNat, dif_neg h, if_neg h]
    rfl

theorem not_isAscii_ofNat {n : Nat} (h : 0x80 ≤ n) : ¬ IsAscii (Char.ofNat n) := by
  rw [IsAscii, toNat_ofNat]
  split <;> omega

/-- The code of a character of several bytes is at least what the first two of them say. -/
theorem le_continuation {start taken code more n : Nat} {low high : UInt8} {rest : Bytes}
    (h : continuation start low high taken code more rest = .ok n) :
    (code * 64 + (low.toNat - 0x80)) * 64 ^ more ≤ n := by
  induction more generalizing low high taken code rest with
  | zero =>
    cases rest with
    | nil => cases h
    | cons b rest =>
      unfold continuation at h
      split at h
      next hb =>
        have hlow := UInt8.le_iff_toNat_le.mp hb.1
        rw [← Except.ok.inj h, Nat.pow_zero, Nat.mul_one]
        exact Nat.add_le_add_left (Nat.sub_le_sub_right hlow _) _
      next => cases h
  | succ more ih =>
    cases rest with
    | nil => cases h
    | cons b rest =>
      unfold continuation at h
      split at h
      next hb =>
        have hlow := UInt8.le_iff_toNat_le.mp hb.1
        refine Nat.le_trans ?_ (ih h)
        rw [Nat.pow_succ', ← Nat.mul_assoc]
        refine Nat.mul_le_mul_right _ ?_
        have hfirst := Nat.add_le_add_left (Nat.sub_le_sub_right hlow 0x80) (code * 64)
        exact Nat.le_trans (Nat.mul_le_mul_right 64 hfirst) (Nat.le_add_right _ _)
      next => cases h

theorem le_lead {b : UInt8} {l : Lead} (h : lead? b = some l) :
    0x80 ≤ (l.payload * 64 + (l.low.toNat - 0x80)) * 64 ^ l.more := by
  unfold lead? at h
  split_ifs at h with htwo hE0 hED hthree hF0 hfour hF4
  all_goals cases h
  · have hb := UInt8.le_iff_toNat_le.mp htwo.1
    simp at hb ⊢
    omega
  · decide
  · decide
  · have hb := UInt8.le_iff_toNat_le.mp hthree.1
    simp at hb ⊢
    omega
  · decide
  · have hb := UInt8.le_iff_toNat_le.mp hfour.1
    simp at hb ⊢
    omega
  · decide

theorem byte_ofNat_toNat {b : UInt8} (h : b < 0x80) : byte (Char.ofNat b.toNat) = b := by
  have hb : b.toNat < 0x80 := UInt8.lt_iff_toNat_lt.mp h
  have hvalid : b.toNat.isValidChar := .inl (by omega)
  rw [byte, toNat_ofNat, if_pos hvalid, UInt8.ofNat_toNat]

/-- A text of ASCII characters has one encoding. -/
theorem eq_map_byte_of_decodeFrom {position : Nat} {bytes : Bytes} {cs : List Char}
    (h : decodeFrom position 0 bytes = .ok cs) (hcs : ∀ c ∈ cs, IsAscii c) :
    bytes = cs.map byte := by
  induction bytes generalizing position cs with
  | nil =>
    cases h
    rfl
  | cons b rest ih =>
    unfold decodeFrom at h
    split at h
    next hb =>
      obtain ⟨cs', hrest, hcons⟩ := outcome_bind.mp h
      cases hcons
      rw [List.forall_mem_cons] at hcs
      rw [List.map_cons, byte_ofNat_toNat hb, ← ih hrest hcs.2]
    next =>
      split at h
      next => cases h
      next l hl =>
        obtain ⟨code, hcode, hmore⟩ := outcome_bind.mp h
        obtain ⟨cs', -, hcons⟩ := outcome_bind.mp hmore
        cases hcons
        rw [List.forall_mem_cons] at hcs
        -- A character of several bytes is none of ASCII.
        have hbound : 0x80 ≤ code := Nat.le_trans (le_lead hl) (le_continuation hcode)
        exact absurd hcs.1 (not_isAscii_ofNat hbound)

theorem eq_ascii_of_decodeUtf8 {bytes : Bytes} {s : String} (h : decodeUtf8 bytes = .ok s)
    (hs : ∀ c ∈ s.toList, IsAscii c) : bytes = ascii s := by
  obtain ⟨cs, hcs, rfl⟩ := outcome_map.mp h
  rw [String.toList_ofList] at hs
  rw [ascii, String.toList_ofList, eq_map_byte_of_decodeFrom hcs hs]

end Text

namespace Markup

/-- What stands between the brackets of a tag, if the piece is one. -/
def Piece.content? : Piece → Option Bytes
  | .startTag content | .emptyTag content => some content
  | _ => none

/-- Whether what stands between the brackets of a tag is cut out of the bytes. -/
def Piece.Within (bytes : Bytes) (p : Piece) : Prop := ∀ content ∈ p.content?, content <:+: bytes

/-- Whether markup that is not broken is passed over. -/
def PassedOver (x : Except Broken (Raw × Nat)) : Prop := ∀ r, x = .ok r → r.1 = .ignored

theorem PassedOver.map {x : Except Broken (Raw × Nat)} (h : PassedOver x) (n : Nat) :
    PassedOver (x.map fun r => (r.1, r.2 + n)) := by
  intro r hr
  obtain ⟨r', hr', rfl⟩ := outcome_map.mp hr
  exact h r' hr'

theorem passedOver_comment (rest : Bytes) : PassedOver (comment rest) := by
  intro r h
  unfold comment at h
  repeat' split at h
  all_goals cases h
  rfl

theorem passedOver_characterData (rest : Bytes) : PassedOver (characterData rest) := by
  intro r h
  unfold characterData at h
  repeat' split at h
  all_goals cases h
  rfl

theorem passedOver_doctype (rest : Bytes) : PassedOver (doctype rest) := by
  intro r h
  simp only [doctype] at h
  repeat' split at h
  all_goals cases h
  rfl

theorem passedOver_instruction (rest : Bytes) : PassedOver (instruction rest) := by
  intro r h
  unfold instruction at h
  repeat' split at h
  all_goals cases h
  rfl

theorem prefix_of_tag {rest content : Bytes} {used : Nat}
    (h : tag rest = .ok (.tag content, used)) : content <+: rest := by
  unfold tag at h
  split at h
  next k hk =>
    split at h
    next b name hname =>
      split_ifs at h
      · cases h
      · cases h
        rw [← hname]
        exact List.take_prefix k rest
    next =>
      cases h
      exact List.nil_prefix
  next => cases h

theorem prefix_of_markup {rest content : Bytes} {used : Nat}
    (h : markup rest = .ok (.tag content, used)) : content <+: rest := by
  unfold markup at h
  split at h
  next => cases h
  next b more =>
    split_ifs at h
    · split at h
      next => cases h
      next c after =>
        split_ifs at h
        · cases (passedOver_characterData _).map 1 _ h
        · cases (passedOver_comment _).map 2 _ h
        · cases (passedOver_doctype _).map 1 _ h
    · cases passedOver_instruction _ _ h
    · exact prefix_of_tag h

theorem within_pieces (opened : List Bytes) (position : Nat) (bytes : Bytes) :
    ∀ p ∈ pieces opened position bytes, p.Within bytes := by
  have hbracket {b : UInt8} {rest cut : Bytes} (h : cut <:+: rest) : cut <:+: b :: rest :=
    h.trans (List.suffix_cons b rest).isInfix
  have hlater {ps : List Piece} {b : UInt8} {rest : Bytes} {used : Nat}
      (h : ∀ p ∈ ps, p.Within (rest.drop used)) : ∀ p ∈ ps, p.Within (b :: rest) :=
    fun p hp content hc => hbracket ((h p hp content hc).trans (List.drop_suffix used rest).isInfix)
  fun_induction pieces opened position bytes with
  | case1 => simp
  | case2 opened position b rest _ ih => exact fun p hp content hc => hbracket (ih p hp content hc)
  | case3 => simp [Piece.Within, Piece.content?]
  | case4 opened position b rest _ used _ ih =>
    exact List.forall_mem_cons.mpr ⟨by simp [Piece.Within, Piece.content?], hlater ih⟩
  | case5 opened position b rest _ content used hmarkup _ ih =>
    refine List.forall_mem_cons.mpr ⟨fun cut hcut => ?_, hlater ih⟩
    obtain rfl : content.dropLast = cut := Option.some.inj hcut
    exact hbracket ((List.dropLast_prefix content).trans (prefix_of_markup hmarkup)).isInfix
  | case6 opened position b rest _ content used hmarkup _ ih =>
    refine List.forall_mem_cons.mpr ⟨fun cut hcut => ?_, hlater ih⟩
    obtain rfl : content = cut := Option.some.inj hcut
    exact hbracket (prefix_of_markup hmarkup).isInfix
  | case7 => simp [Piece.Within, Piece.content?]
  | case8 position b rest _ used expected outer _ ih =>
    exact List.forall_mem_cons.mpr ⟨by simp [Piece.Within, Piece.content?], hlater ih⟩
  | case9 => simp [Piece.Within, Piece.content?]

theorem within_piecesOf (bytes : Bytes) : ∀ p ∈ piecesOf bytes, p.Within bytes := by
  unfold piecesOf
  split
  · intro p hp content hc
    exact (within_pieces [] 0 _ p hp content hc).trans (List.drop_suffix 3 bytes).isInfix
  · exact within_pieces [] 0 bytes

/-- Whether the tag that an event states is written in the bytes. -/
def Event.NamedIn (bytes : Bytes) (e : Event) : Prop :=
  ∀ tag ∈ e.tag?, ∃ name, name <:+: bytes ∧ Text.decodeUtf8 name = .ok tag

theorem name_of_tagText {content : Bytes} {tag : String} {attributes : List (String × String)}
    (h : tagText content = .ok (tag, attributes)) :
    Text.decodeUtf8 (tagName content) = .ok tag := by
  obtain ⟨tag', htag, hmore⟩ := outcome_bind.mp h
  obtain ⟨attributes', -, hpair⟩ := outcome_bind.mp hmore
  cases hpair
  exact outcome_mapError.mp htag

/-- The name of a tag comes first between its brackets, so it is cut out of the bytes as well. -/
theorem namedIn_ofPiece {bytes : Bytes} {p : Piece} (h : p.Within bytes) :
    (Event.ofPiece p).NamedIn bytes := by
  have hname {content : Bytes} {tag : String} {attributes : List (String × String)}
      (hcontent : content <:+: bytes) (htext : tagText content = .ok (tag, attributes)) :
      ∃ name, name <:+: bytes ∧ Text.decodeUtf8 name = .ok tag :=
    ⟨tagName content, (List.takeWhile_prefix _).isInfix.trans hcontent, name_of_tagText htext⟩
  intro tag htag
  cases p with
  | startTag content =>
    simp only [Event.ofPiece] at htag
    split at htag
    next tag' attributes htext =>
      cases htag
      exact hname (h content rfl) htext
    next => cases htag
  | emptyTag content =>
    simp only [Event.ofPiece] at htag
    split at htag
    next tag' attributes htext =>
      cases htag
      exact hname (h content rfl) htext
    next => cases htag
  | endTag => cases htag
  | ignored => cases htag
  | broken position fault => cases htag

theorem namedIn_eventsOf (bytes : Bytes) : ∀ e ∈ eventsOf bytes, e.NamedIn bytes := by
  intro e he
  obtain ⟨p, hp, rfl⟩ := List.mem_map.mp he
  exact namedIn_ofPiece (within_piecesOf bytes p hp)

end Markup
end ClassGrammar
