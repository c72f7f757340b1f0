import ClassGrammar.Proofs.IndexChecks.CheckedOutline

/-! The rest of the run that looks at each index: linking, and the text of a grammar. No index is
ever out of range. -/
namespace ClassGrammar

namespace Indexed

/-- Where a reference without a declaration stands. The attribute is looked at for its name. -/
def site (i : Interface) : Place → Except Halt String
  | .attribute k => do
      let a ← entry i.attributes k
      return s!"type of attribute '{a.name}' of interface '{i.name}'"
  | .superType _ => .ok s!"super type of interface '{i.name}'"

/-- Links one reference. Its interface is looked at once for the name and once for the target. -/
def linkSlot (g : Grammar) (slot : Slot) : Except Halt Grammar := do
  let i ← entry g.interfaces slot.owner
  match Grammar.refAt? i slot.place with
  | none => .error (.fault (.missingElement
      s!"named {slot.place.noun} #{slot.place.index} of interface {slot.owner}"))
  | some ref => match g.resolve? ref.name slot.place with
    | none => do
        let context ← site i slot.place
        .error (.fault (.danglingReference ref.name context))
    | some t => do
        let _ ← entry g.interfaces slot.owner
        return { g with
          interfaces := g.interfaces.modify slot.owner (Grammar.setTarget t · slot.place) }

def linked (g : Grammar) : List Slot → Except Halt Grammar
  | [] => .ok g
  | slot :: rest => do
      let g ← linkSlot g slot
      linked g rest

def transform (s : Settings) (roots : List Node) : Except Halt Grammar := do
  let m ← ofNodes (IdIndex.ofRoots roots) roots
  let o ← ofModel s m
  let g ← linked o.grammar o.pending
  return g.dedupePrimitives

/-- The entries from a position on. -/
def entriesFrom {α : Type} (l : List α) (k : Nat) : Except Halt (List α) :=
  if k ≤ l.length then .ok (l.drop k) else .error .outOfRange

def unionLine (u : Union) : Except Halt String :=
  match u.literals with
  | [] => .ok ("// enumeration " ++ u.name ++ " has no literals")
  | _ => do
      let literals ← entriesFrom u.entries 1
      return "type " ++ u.name ++ " = " ++ " | ".intercalate literals ++ ";"

def lines (g : Grammar) : Except Halt (List String) := do
  let unions ← g.unions.mapM unionLine
  return ["grammar " ++ g.name, "", "entry " ++ g.entryRule ++ ":", "    (elements+=ID)*;"] ++
    g.interfaces.flatMap (fun i => "" :: i.lines) ++ unions.flatMap (fun line => ["", line]) ++
    ["", "hidden terminal WS: /\\s+/;", "terminal ID: /[_a-zA-Z][\\w_]*/;"] ++
    g.primitives.map Primitive.terminal

def render (g : Grammar) : Except Halt String := do
  let lines ← lines g
  return String.join (lines.map (· ++ "\n"))

end Indexed

theorem Union.line_guards (u : Union) : Guards True Eq (Indexed.unionLine u) (.ok u.line) := by
  unfold Indexed.unionLine Union.line
  cases hu : u.literals with
  | nil => exact .ok rfl
  | cons l rest =>
    have hle : 1 ≤ u.entries.length := by simp [Union.entries]
    simp only [Indexed.entriesFrom, if_pos hle]
    refine .ok ?_
    simp [Union.entries, hu]

/-- The text never needs an entry that is not there. -/
theorem Grammar.render_guards (g : Grammar) : Guards True Eq (Indexed.render g) (.ok g.render) := by
  have hunions := Guards.mapM_ok (C := True) (l := g.unions) fun u _ => u.line_guards
  have hlines : Guards True Eq (Indexed.lines g) (.ok g.lines) := by
    refine hunions.bind_ok (.ok ?_)
    simp only [Grammar.lines, List.flatMap_map]
  exact hlines.bind_ok (.ok rfl)

namespace Grammar

/-- A place with a reference is there, so a message can say what stands in it. -/
theorem site_guards {i : Interface} {p : Place} {ref : TypeRef} (h : refAt? i p = some ref) :
    Guards True Eq (Indexed.site i p) (.ok (site i p)) := by
  unfold Indexed.site site
  match p with
  | .superType _ => exact .ok rfl
  | .attribute k =>
    obtain ⟨a, ha, -⟩ := Option.bind_eq_some_iff.mp h
    refine .look (fun _ => (List.getElem?_eq_some_iff.mp ha).1) fun a' ha' => .ok ?_
    simp only [ha', Option.map_some, Option.getD_some]

theorem linkSlot_guards (g : Grammar) (slot : Slot) :
    Guards (slot.owner < g.interfaces.length) Eq (Indexed.linkSlot g slot) (g.linkSlot slot) := by
  refine .look id fun i hi => ?_
  unfold linkSlot
  simp only [interface_of_getElem? hi]
  cases href : refAt? i slot.place with
  | none => exact .fault _
  | some ref =>
    cases ht : g.resolve? ref.name slot.place with
    | none =>
      simp only [ht]
      exact ((site_guards href).imp fun _ => trivial).bind_ok (.fault _)
    | some t =>
      simp only [ht]
      exact .look id fun _ _ => .ok rfl

theorem linked_guards (g : Grammar) (slots : List Slot) :
    Guards (∀ slot ∈ slots, slot.owner < g.interfaces.length) Eq (Indexed.linked g slots)
      (g.linked slots) := by
  induction slots generalizing g with
  | nil => exact .ok rfl
  | cons slot rest ih =>
    rw [linked_cons]
    refine ((linkSlot_guards g slot).imp fun h => h slot List.mem_cons_self).bind ?_
    rintro g₁ _ hg rfl
    refine (ih g₁).imp fun h other hother => ?_
    obtain ⟨ref, t, -, -, rfl⟩ := linkSlot_eq_ok.mp hg
    rw [fill, List.length_modify]
    exact h other (List.mem_cons_of_mem slot hother)

end Grammar

/-- The interfaces of the pending slots are there. -/
theorem Outline.Recorded.owner_lt {o : Outline} (ho : o.Recorded) {slot : Slot}
    (hs : slot ∈ o.pending) : slot.owner < o.grammar.interfaces.length := by
  by_contra hge
  have hcell := (ho.cells slot).mp hs
  rw [Grammar.cell?_of_length_le (Nat.le_of_not_lt hge)] at hcell
  cases hcell

/-- A run never looks at an index out of range. -/
theorem transform_guards (s : Settings) (roots : List Node) :
    Guards True Eq (Indexed.transform s roots) (transform s roots) := by
  refine (Model.ofNodes_guards _ roots).bind ?_
  rintro m _ hm rfl
  refine (Outline.ofModel_guards s (Model.inRange_of_ofNodes hm)).bind ?_
  rintro _ o ho rfl
  have hrecorded := Outline.recorded_of_ofModel ho
  refine ((o.grammar.linked_guards o.pending).imp fun _ _ => hrecorded.owner_lt).bind ?_
  rintro g _ - rfl
  exact .ok rfl

/-- Whatever the identifiers of the nodes are, the handles in a class model are those of elements,
and its ends name their association. No index of a run or of the text of a grammar is out of range:
the run that looks at each of them ends as the run that does not. -/
theorem transform_inRange (roots : List Node) :
    (∀ ix m, Model.ofNodes ix roots = .ok m → m.InRange ∧
      ∀ e ∈ m.elements, ∀ p ∈ e.properties, ∀ a, p.association = some a → a < m.size) ∧
    (∀ s, Indexed.transform s roots = (transform s roots).mapError Halt.fault) ∧
    ∀ g, Indexed.render g = .ok g.render := by
  refine ⟨fun ix m h => ?_, fun s => (transform_guards s roots).eq_free trivial,
    fun g => g.render_guards.eq_free trivial⟩
  have hm := Model.inRange_of_ofNodes h
  exact ⟨hm, fun e he p hp a ha => hm.association_lt he hp ha⟩

/-- A data type and a class with the same identifier, and a class that refers to both. -/
def sharedNodes : List Node := [
  .mk [.text "@_xmi:type" "uml:DataType", .text "@_xmi:id" "x", .text "@_name" "String"],
  .mk [.text "@_xmi:type" "uml:Class", .text "@_xmi:id" "x", .text "@_name" "Base"],
  .mk [.text "@_xmi:type" "uml:Class", .text "@_xmi:id" "d", .text "@_name" "D",
    .one "ownedAttribute" (.mk [.text "@_type" "x"])],
  .mk [.text "@_xmi:type" "uml:Association", .text "@_xmi:id" "a",
    .text "@_navigableOwnedEnd" "e", .many "ownedEnd" [
      .mk [.text "@_xmi:id" "e", .text "@_type" "d"], .mk [.text "@_type" "d"]]]]

theorem sharedNodes_inRange :
    ∃ m g, Model.ofNodes (.ofRoots sharedNodes) sharedNodes = .ok m ∧ m.InRange ∧
      Indexed.transform {} sharedNodes = .ok g ∧ Indexed.render g = .ok g.render := by
  obtain ⟨hmodel, hrun, htext⟩ := transform_inRange sharedNodes
  have hg : (transform {} sharedNodes).isOk := by decide +kernel
  cases h : transform {} sharedNodes with
  | error f => simp [h, Except.isOk, Except.toBool] at hg
  | ok g =>
    obtain ⟨m, hm, -⟩ := outcome_bind.mp h
    exact ⟨m, g, hm, (hmodel _ m hm).1, by rw [hrun, h]; rfl, htext g⟩

end ClassGrammar
