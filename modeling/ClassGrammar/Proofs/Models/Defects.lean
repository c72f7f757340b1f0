import ClassGrammar.Proofs.Models.FinishedModels

/-! Why class models cannot be read. The defects of a node are stated on the node alone, without
reading it. A model can be read just when the top-level nodes have known kinds and no node that is
needed has a defect; nodes that nothing refers to may have any. -/
namespace ClassGrammar

namespace Text

/-- The texts of numbers that fit in 32 bits: digits, after an optional plus sign. -/
def IsWord (s : String) : Prop :=
  ∃ digits : List Char, digits ≠ [] ∧ (∀ c ∈ digits, '0' ≤ c ∧ c ≤ '9') ∧
    (s.toList = digits ∨ s.toList = '+' :: digits) ∧
    digits.foldl (fun n c => 10 * n + (c.toNat - 48)) 0 < 2 ^ 32

theorem le_foldl_digits (n : Nat) (cs : List Char) :
    n ≤ cs.foldl (fun n c => 10 * n + (c.toNat - 48)) n := by
  induction cs generalizing n with
  | nil => exact Nat.le_refl n
  | cons c rest ih =>
    have hrest := ih (10 * n + (c.toNat - 48))
    rw [List.foldl_cons]
    omega

/-- A number that does not fit after some digit does not fit after further ones, so it is enough to
look at the whole number. -/
theorem digitsFrom_eq_some {n k : Nat} {cs : List Char} (hn : n < wordLimit) :
    digitsFrom n cs = some k ↔ (∀ c ∈ cs, '0' ≤ c ∧ c ≤ '9') ∧
      cs.foldl (fun n c => 10 * n + (c.toNat - 48)) n = k ∧ k < wordLimit := by
  induction cs generalizing n with
  | nil =>
    simp only [digitsFrom, Option.some.injEq, List.not_mem_nil, false_implies, implies_true,
      List.foldl_nil, true_and]
    constructor
    · rintro rfl
      exact ⟨rfl, hn⟩
    · intro h
      exact h.1
  | cons c rest ih =>
    rw [List.forall_mem_cons, digitsFrom, List.foldl_cons]
    by_cases hc : '0' ≤ c ∧ c ≤ '9'
    · simp only [digit?, if_pos hc]
      by_cases hfits : 10 * n + (c.toNat - 48) < wordLimit
      · rw [if_pos hfits, ih hfits]
        simp only [hc, true_and, and_self]
      · rw [if_neg hfits]
        have hrest := le_foldl_digits (10 * n + (c.toNat - 48)) rest
        constructor
        · intro h
          cases h
        · rintro ⟨-, rfl, hk⟩
          omega
    · simp [digit?, hc]

theorem decimal?_eq_some {cs : List Char} {k : Nat} : decimal? cs = some k ↔
    ∃ digits, digits ≠ [] ∧ (cs = digits ∨ cs = '+' :: digits) ∧ digitsFrom 0 digits = some k := by
  have hplus (digits : List Char) : digitsFrom 0 ('+' :: digits) = none := rfl
  unfold decimal?
  split
  next c rest =>
    constructor
    · exact fun hk => ⟨c :: rest, List.cons_ne_nil c rest, .inr rfl, hk⟩
    · rintro ⟨digits, -, rfl | hsign, hk⟩
      · simp [hplus] at hk
      · rwa [(List.cons.inj hsign).2]
  next c rest hnoSign =>
    constructor
    · exact fun hk => ⟨c :: rest, List.cons_ne_nil c rest, .inl rfl, hk⟩
    · rintro ⟨digits, hne, rfl | hsign, hk⟩
      · exact hk
      · obtain ⟨d, ds, rfl⟩ := List.exists_cons_of_ne_nil hne
        obtain ⟨hc, hrest⟩ := List.cons.inj hsign
        exact absurd hrest (hnoSign d ds hc)
  next => simp

theorem word?_eq_some {s : String} {k : Nat} : word? s = some k ↔ ∃ digits, digits ≠ [] ∧
    (s.toList = digits ∨ s.toList = '+' :: digits) ∧ (∀ c ∈ digits, '0' ≤ c ∧ c ≤ '9') ∧
      digits.foldl (fun n c => 10 * n + (c.toNat - 48)) 0 = k ∧ k < wordLimit := by
  have hzero : 0 < wordLimit := by decide
  simp only [word?, decimal?_eq_some, digitsFrom_eq_some hzero]

theorem word?_isSome {s : String} : (word? s).isSome ↔ IsWord s := by
  simp only [Option.isSome_iff_exists, word?_eq_some]
  constructor
  · rintro ⟨k, digits, hne, hs, hdigits, rfl, hk⟩
    exact ⟨digits, hne, hdigits, hs, hk⟩
  · rintro ⟨digits, hne, hdigits, hs, hk⟩
    exact ⟨_, digits, hne, hs, hdigits, rfl, hk⟩

end Text

namespace Node

/-- Whether a node states the kind of a type: class, interface, data type, primitive type or
enumeration. -/
def IsType (n : Node) : Prop := ∃ kind : TypeKind, n.kind? = some kind.text

/-- Whether a property has a type: a node of the document or, without an identifier, what its first
`type` child refers to. -/
inductive HasType (ix : IdIndex) (c : Node) : Prop where
  | document {id : String} {n : Node} (key : c.attr? "type" = some id)
      (found : ix.get? id = some n) (isType : n.IsType)
  | library {ref : Node} {href : String} (noKey : c.attr? "type" = none)
      (child : c.child? "type" = some ref) (reference : ref.attr? "href" = some href)
      (isType : ref.IsType)

/-- What a property states as one of its bounds. -/
def boundText? (c : Node) (tag : String) : Option String :=
  (c.child? tag).bind fun bound => (bound.attr? "value").map Text.trim

/-- Whether the bounds that a property states are numbers, or a mark for many above. -/
structure HasBounds (c : Node) : Prop where
  lower : ∀ text, c.boundText? "lowerValue" = some text → Text.IsWord text
  upper : ∀ text, c.boundText? "upperValue" = some text →
    text = "*" ∨ text = "-1" ∨ Text.IsWord text

/-- Whether a node has no defect of its own. -/
structure Intact (ix : IdIndex) (n : Node) : Prop where
  named : n.IsType → n.name?.isSome
  literals : n.kind? = some "uml:Enumeration" → ∀ c ∈ n.children "ownedLiteral", c.name?.isSome
  ends : n.isAssociation = true → (n.children "ownedEnd").length = 2
  types : ∀ c ∈ n.propertyNodes, c.HasType ix
  bounds : ∀ c ∈ n.propertyNodes, c.HasBounds
  generals : n.isClass = true → ∀ c ∈ n.children "generalization", ∃ id general,
    c.attr? "general" = some id ∧ ix.get? id = some general ∧ general.isClass = true

variable {ix : IdIndex} {n c : Node}

theorem isType_iff : n.IsType ↔ (TypeKind.ofNode? n).isSome := by
  rw [Option.isSome_iff_exists]
  exact exists_congr fun kind => TypeKind.bind_ofText?_eq_some.symm

theorem IsType.of_isClass (h : n.isClass = true) : n.IsType := by
  obtain ⟨kind, hk, -⟩ := isClass_eq_true.mp h
  exact isType_iff.mpr (by simp [hk])

theorem typeSource?_isSome : (c.typeSource? ix.get?).isSome ↔ c.HasType ix := by
  rw [Option.isSome_iff_exists]
  simp only [typeSource?_eq_some]
  constructor
  · rintro ⟨src, hsrc⟩
    cases hsrc with
    | node key found isType => exact .document key found (isType_iff.mpr (by simp [isType]))
    | @library ref href kind key child isType =>
      obtain ⟨noKey, ref', child', reference⟩ := libraryHref?_eq_some.mp key
      obtain rfl := Option.some.inj (child.symm.trans child')
      exact .library noKey child reference ⟨kind, TypeKind.bind_ofText?_eq_some.mp isType⟩
  · rintro (⟨key, found, kind, isType⟩ | ⟨noKey, child, reference, kind, isType⟩)
    · exact ⟨_, .node key found (TypeKind.bind_ofText?_eq_some.mpr isType)⟩
    · exact ⟨_, .library (libraryHref?_eq_some.mpr ⟨noKey, _, child, reference⟩) child
        (TypeKind.bind_ofText?_eq_some.mpr isType)⟩

theorem generalNode?_isSome : (c.generalNode? ix.get?).isSome ↔ ∃ id general,
    c.attr? "general" = some id ∧ ix.get? id = some general ∧ general.isClass = true := by
  rw [Option.isSome_iff_exists, exists_comm]
  simp [generalNode?, Option.bind_eq_some_iff, Option.filter_eq_some_iff]

theorem exists_readLower_iff {name : String} : (∃ k, readLower c name = .ok k) ↔
    ∀ text, c.boundText? "lowerValue" = some text → Text.IsWord text := by
  simp only [← Text.word?_isSome]
  unfold readLower boundText?
  cases c.child? "lowerValue" with
  | none => simp
  | some bound =>
    cases hv : bound.attr? "value" with
    | none => simp [hv]
    | some value => cases hw : Text.word? (Text.trim value) <;> simp [hv, hw]

theorem exists_readUpper_iff {name : String} : (∃ k, readUpper c name = .ok k) ↔
    ∀ text, c.boundText? "upperValue" = some text →
      text = "*" ∨ text = "-1" ∨ Text.IsWord text := by
  simp only [← Text.word?_isSome]
  unfold readUpper boundText?
  cases c.child? "upperValue" with
  | none => simp
  | some bound =>
    cases hv : bound.attr? "value" with
    | none => simp [hv]
    | some value =>
      by_cases hmany : Text.trim value = "*" ∨ Text.trim value = "-1"
      · simp [hv, hmany, ← or_assoc]
      · cases hw : Text.word? (Text.trim value) <;> simp [hv, hw, hmany, ← or_assoc]

theorem multiplicity?_isSome : c.multiplicity?.isSome ↔ c.HasBounds := by
  have hread : c.multiplicity?.isSome ↔ ∃ m, readMultiplicity c "" = .ok m := by
    simp only [Option.isSome_iff_exists, readMultiplicity_eq_ok]
  rw [hread, readMultiplicity, exists_outcome_bind]
  simp only [exists_outcome_bind_pure, exists_readUpper_iff]
  constructor
  · rintro ⟨k, hlower, hupper⟩
    exact ⟨exists_readLower_iff.mp ⟨k, hlower⟩, hupper⟩
  · rintro ⟨hlower, hupper⟩
    obtain ⟨k, hk⟩ := exists_readLower_iff.mpr hlower
    exact ⟨k, hk, hupper⟩

/-- A node is sound when its kind is known and it has no defect. -/
theorem sound_iff : n.Sound ix.get? ↔ (n.IsType ∨ n.isAssociation = true) ∧ n.Intact ix := by
  simp only [isType_iff]
  constructor
  · intro hs
    refine ⟨hs.kind, fun htype => hs.named (isType_iff.mp htype), hs.literals, hs.ends,
      fun c hc => typeSource?_isSome.mp (hs.properties c hc).1,
      fun c hc => multiplicity?_isSome.mp (hs.properties c hc).2,
      fun hclass c hc => generalNode?_isSome.mp (hs.generals hclass c hc)⟩
  · rintro ⟨hkind, hi⟩
    exact ⟨hkind, fun htype => hi.named (isType_iff.mpr htype), hi.literals, hi.ends,
      fun c hc =>
        ⟨typeSource?_isSome.mpr (hi.types c hc), multiplicity?_isSome.mpr (hi.bounds c hc)⟩,
      fun hclass c hc => generalNode?_isSome.mpr (hi.generals hclass c hc)⟩

/-- Of the needed nodes only those at the top can have an unknown kind when all are intact. -/
theorem Needed.isType_or {roots : List Node}
    (hroots : ∀ r ∈ roots, r.IsType ∨ r.isAssociation = true)
    (hintact : ∀ m : Node, m.Needed ix.get? roots → m.Intact ix) (hn : n.Needed ix.get? roots) :
    n.IsType ∨ n.isAssociation = true := by
  cases hn with
  | root mem => exact hroots n mem
  | type owner child key found =>
    left
    rcases (hintact _ owner).types _ child with ⟨key', found', isType⟩ | ⟨noKey, -, -, -⟩
    · obtain rfl := Option.some.inj (key.symm.trans key')
      obtain rfl := Option.some.inj (found.symm.trans found')
      exact isType
    · cases noKey.symm.trans key
  | general owner isClass child key found =>
    left
    obtain ⟨id', general, key', found', hclass⟩ := (hintact _ owner).generals isClass _ child
    obtain rfl := Option.some.inj (key.symm.trans key')
    obtain rfl := Option.some.inj (found.symm.trans found')
    exact .of_isClass hclass

end Node

/-- A class model can be read just when all top-level nodes have known kinds and no needed node has
a defect. -/
theorem Model.exists_ofNodes_iff_intact {roots : List Node} (hap : Node.Apart roots)
    (hagree : Node.HrefsAgree roots) :
    (∃ m, Model.ofNodes (.ofRoots roots) roots = .ok m) ↔
      (∀ n ∈ roots, n.IsType ∨ n.isAssociation = true) ∧
      ∀ n : Node, n.Needed (IdIndex.ofRoots roots).get? roots → n.Intact (.ofRoots roots) := by
  rw [Model.exists_ofNodes_iff hap hagree]
  constructor
  · intro hsound
    exact ⟨fun n hn => (Node.sound_iff.mp (hsound n (.root hn))).1,
      fun n hn => (Node.sound_iff.mp (hsound n hn)).2⟩
  · rintro ⟨hroots, hintact⟩ n hn
    exact Node.sound_iff.mpr ⟨hn.isType_or hroots hintact, hintact n hn⟩

/-- A ward with two nested classes, one of which has no name, and with a property of a given type.
The other nested class refers back to the ward. -/
def ward (type : String) : List Node := [
  .mk [.text "@_xmi:type" "uml:Class", .text "@_xmi:id" "ward", .text "@_name" "Ward",
    .one "ownedAttribute" (.mk [.text "@_type" type]),
    .many "nestedClassifier" [
      .mk [.text "@_xmi:type" "uml:Class", .text "@_xmi:id" "room", .text "@_name" "Room",
        .one "generalization" (.mk [.text "@_general" "ward"])],
      .mk [.text "@_xmi:type" "uml:Class", .text "@_xmi:id" "bed"]]]]

def wardModel : Model where
  elements := [
    ⟨some "ward", "Ward", .publicAccess, .classifier false
      [⟨none, "room", .publicAccess, .one, .plain, 1, none⟩] []⟩,
    ⟨some "room", "Room", .publicAccess, .classifier false [] [⟨none, [0]⟩]⟩]
  roots := [0]
  table := [("room", 1), ("ward", 0)]

/-- The class without a name does no harm until something refers to it. -/
theorem ward_defects :
    (Model.ofNodes (.ofRoots (ward "room")) (ward "room") = .ok wardModel ∧
      ∀ n : Node, n.Needed (IdIndex.ofRoots (ward "room")).get? (ward "room") →
        n.Intact (.ofRoots (ward "room"))) ∧
    ¬ ∃ m, Model.ofNodes (.ofRoots (ward "bed")) (ward "bed") = .ok m := by
  have hap : Node.Apart (ward "room") ∧ Node.Apart (ward "bed") := by decide +kernel
  have hagree : Node.HrefsAgree (ward "room") ∧ Node.HrefsAgree (ward "bed") := by decide +kernel
  constructor
  · have hok : Model.ofNodes (.ofRoots (ward "room")) (ward "room") = .ok wardModel := by
      decide +kernel
    exact ⟨hok, ((Model.exists_ofNodes_iff_intact hap.1 hagree.1).mp ⟨wardModel, hok⟩).2⟩
  · intro hok
    have hintact := ((Model.exists_ofNodes_iff_intact hap.2 hagree.2).mp hok).2
    have hfound : (IdIndex.ofRoots (ward "bed")).get? "bed" =
        some (.mk [.text "@_xmi:type" "uml:Class", .text "@_xmi:id" "bed"]) := by
      rw [IdIndex.get?_ofRoots]
      rfl
    have hbed : Node.Needed (IdIndex.ofRoots (ward "bed")).get? (ward "bed")
        (.mk [.text "@_xmi:type" "uml:Class", .text "@_xmi:id" "bed"]) :=
      .type (.root List.mem_cons_self) (List.mem_cons_self : Node.mk [.text "@_type" "bed"] ∈ _)
        rfl hfound
    have hnamed := (hintact _ hbed).named ⟨.classType, rfl⟩
    cases hnamed

end ClassGrammar
