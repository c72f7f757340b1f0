import ClassGrammar.Proofs.Models.HandleRange
import ClassGrammar.Proofs.Models.LargerIndex
import ClassGrammar.Transform

/-! A run that looks at each index. Where the run takes the entry at a position for granted, this
one stops when there is none. -/
namespace ClassGrammar

/-- Why a run that looks at each index stops. -/
inductive Halt where
  | fault (f : Fault)
  /-- An index is not that of an entry. -/
  | outOfRange
  deriving DecidableEq, Repr

namespace Indexed

/-- The entry at a position. -/
def entry {α : Type} (l : List α) (k : Nat) : Except Halt α :=
  match l[k]? with
  | some a => .ok a
  | none => .error .outOfRange

/-- A step that uses no index. -/
def free {α : Type} (x : Except Fault α) : Except Halt α := x.mapError .fault

/-! The class model. The element of a handle is looked at when the handle is given out. -/

def propertyType (ix : IdIndex) (d : Draft) (node : Node) : Except Halt (Draft × Handle) := do
  let (d, type) ← free (Draft.propertyType ix d node)
  let _ ← entry d.model.elements type
  return (d, type)

def propertyName (m : Model) (type : Handle) (node : Node) : Except Halt String :=
  match node.name? with
  | some name => .ok name
  | none => do
      let e ← entry m.elements type
      return Text.lowerFirst e.name

def property (ix : IdIndex) (d : Draft) (node : Node) : Except Halt (Draft × Property) := do
  let (d, type) ← propertyType ix d node
  let name ← propertyName d.model type node
  let multiplicity ← free (readMultiplicity node name)
  return (d, {
    id := node.id?
    name := name
    visibility := .ofText (node.attr? "visibility")
    multiplicity := multiplicity
    aggregation := .ofText (node.attr? "aggregation")
    type := type
    association := none })

/-- Parts that are read one after the other. -/
def readEach {β : Type} (read : Draft → Node → Except Halt (Draft × β)) (d : Draft) :
    List Node → Except Halt (Draft × List β)
  | [] => .ok (d, [])
  | node :: rest => do
      let (d, b) ← read d node
      let (d, bs) ← readEach read d rest
      return (d, b :: bs)

def generalization (ix : IdIndex) (specific : Node) (d : Draft) (node : Node) :
    Except Halt (Draft × Generalization) := do
  let (d, g) ← free (Draft.generalization ix specific d node)
  let _ ← g.targets.mapM (entry d.model.elements)
  return (d, g)

/-- The class whose members are filled is looked at. -/
def fillMembers (ix : IdIndex) (d : Draft) (h : Handle) (node : Node) : Except Halt Draft := do
  let (d, attributes) ← readEach (property ix) d (node.children "ownedAttribute")
  let (d, generals) ← readEach (generalization ix node) d (node.children "generalization")
  let _ ← entry d.model.elements h
  return { d with model := d.model.setMembers h attributes generals }

/-- A new association is looked at so that its ends can name it. -/
def associationFor (ix : IdIndex) (d : Draft) (node : Node) : Except Halt (Draft × Handle) :=
  match node.id?.bind d.model.lookup, node.children "ownedEnd" with
  | none, [a, b] => do
      let (d, first) ← property ix d a
      let (d, second) ← property ix d b
      let h := d.model.size
      let m := d.model.add {
        id := node.id?
        name := node.name?.getD ""
        visibility := .ofText (node.attr? "visibility")
        form := .association { first with association := some h }
          { second with association := some h }
          ((node.attr? "navigableOwnedEnd").elim [] Text.words) }
      let _ ← entry m.elements h
      return ({ d with model := m }, h)
  | _, _ => free (Draft.associationFor ix d node)

def placeRoot (ix : IdIndex) (d : Draft) (position : Nat) (node : Node) :
    Except Halt (Draft × Handle) :=
  if node.kind? = some "uml:Association" then associationFor ix d node
  else free (Draft.rootFor ix d position node)

def rootFor (ix : IdIndex) (d : Draft) (position : Nat) (node : Node) :
    Except Halt (Draft × Handle) := do
  let (d, h) ← placeRoot ix d position node
  let _ ← entry d.model.elements h
  return (d, h)

end Indexed

/-- How a run that looks at each index ends, beside the run that does not: with a related value or
with the same fault. It can only be out of range unless a condition holds. -/
inductive Guards {α β : Type} (C : Prop) (R : α → β → Prop) : Except Halt α → Except Fault β → Prop
  | ok {a : α} {b : β} (h : R a b) : Guards C R (.ok a) (.ok b)
  | fault (f : Fault) : Guards C R (.error (.fault f)) (.error f)
  | outOfRange {y : Except Fault β} (h : ¬ C) : Guards C R (.error .outOfRange) y

namespace Guards

variable {α α' β β' : Type} {C C' : Prop} {R : α → α' → Prop} {S : β → β' → Prop}

theorem bind {x : Except Halt α} {y : Except Fault α'} {next : α → Except Halt β}
    {next' : α' → Except Fault β'} (h : Guards C R x y)
    (hnext : ∀ a a', y = .ok a' → R a a' → Guards C S (next a) (next' a')) :
    Guards C S (x >>= next) (y >>= next') := by
  cases h with
  | ok hr => exact hnext _ _ rfl hr
  | fault f => exact .fault f
  | outOfRange hc => exact .outOfRange hc

theorem bind_ok {x : Except Halt α} {a : α} {next : α → Except Halt β} {y : Except Fault β'}
    (h : Guards C Eq x (.ok a)) (hnext : Guards C S (next a) y) : Guards C S (x >>= next) y := by
  cases h with
  | ok hr => exact hr ▸ hnext
  | outOfRange hc => exact .outOfRange hc

theorem free (y : Except Fault α) : Guards C Eq (Indexed.free y) y := by
  cases y with
  | ok a => exact .ok rfl
  | error f => exact .fault f

/-- Looking at an entry only matters when there is none. -/
theorem look {l : List α} {k : Nat} {next : α → Except Halt β} {y : Except Fault β'}
    (hk : C → k < l.length) (hnext : ∀ a, l[k]? = some a → Guards C S (next a) y) :
    Guards C S (Indexed.entry l k >>= next) y := by
  unfold Indexed.entry
  cases ha : l[k]? with
  | some a => exact hnext a ha
  | none => exact .outOfRange fun hc => by simp [List.getElem?_eq_getElem (hk hc)] at ha

theorem look_some {l : List α} {k : Nat} {a : α} {next : α → Except Halt β} {y : Except Fault β'}
    (ha : l[k]? = some a) (hnext : Guards C S (next a) y) :
    Guards C S (Indexed.entry l k >>= next) y := by
  unfold Indexed.entry
  rw [ha]
  exact hnext

/-- A run that looks at one more entry at its end. -/
theorem look_last {γ : Type} {x : Except Halt α} {y : Except Fault α} {l : α → List γ} {k : α → Nat}
    (h : Guards C Eq x y) (hk : ∀ a, y = .ok a → C → k a < (l a).length) :
    Guards C Eq (x >>= fun a => Indexed.entry (l a) (k a) >>= fun _ => pure a) y := by
  cases h with
  | ok hr =>
    subst hr
    exact look (hk _ rfl) fun _ _ => .ok rfl
  | fault f => exact .fault f
  | outOfRange hc => exact .outOfRange hc

theorem map {f : α → β} {f' : α' → β'} {x : Except Halt α} {y : Except Fault α'}
    (h : Guards C R x y) (hf : ∀ a a', R a a' → S (f a) (f' a')) :
    Guards C S (x.map f) (y.map f') := by
  cases h with
  | ok hr => exact .ok (hf _ _ hr)
  | fault f => exact .fault f
  | outOfRange hc => exact .outOfRange hc

theorem mapM_ok {f : α → Except Halt β} {g : α → β} {l : List α}
    (h : ∀ a ∈ l, Guards C Eq (f a) (.ok (g a))) : Guards C Eq (l.mapM f) (.ok (l.map g)) := by
  induction l with
  | nil => exact .ok rfl
  | cons a rest ih =>
    rw [List.mapM_cons]
    refine (h a List.mem_cons_self).bind_ok ?_
    exact (ih fun b hb => h b (List.mem_cons_of_mem a hb)).bind_ok (.ok rfl)

theorem imp {x : Except Halt α} {y : Except Fault α'} (h : Guards C R x y) (hc : C' → C) :
    Guards C' R x y := by
  cases h with
  | ok hr => exact .ok hr
  | fault f => exact .fault f
  | outOfRange hn => exact .outOfRange fun h => hn (hc h)

theorem eq_free {x : Except Halt α} {y : Except Fault α} (h : Guards C Eq x y) (hc : C) :
    x = Indexed.free y := by
  cases h with
  | ok hr => rw [hr]; rfl
  | fault f => rfl
  | outOfRange hn => exact absurd hc hn

theorem eq_ok {x : Except Halt α} {y : Except Fault α} {a : α} (h : Guards C Eq x y)
    (hx : x = .ok a) : y = .ok a := by
  cases h with
  | ok hr => rw [← hr, Except.ok.inj hx]
  | fault f => cases hx
  | outOfRange _ => cases hx

end Guards

theorem Model.element_guards (m : Model) (h : Handle) :
    Guards (h < m.size) Eq (Indexed.entry m.elements h) (.ok (m.element h)) := by
  rw [← bind_pure (Indexed.entry m.elements h)]
  exact .look id fun e he => .ok (element_of_getElem? he).symm

theorem Model.propertyName_guards (m : Model) (type : Handle) (n : Node) :
    Guards (type < m.size) Eq (Indexed.propertyName m type n)
      (.ok (n.name?.getD (Text.lowerFirst (m.element type).name))) := by
  unfold Indexed.propertyName
  cases n.name? with
  | some name => exact .ok rfl
  | none => exact (m.element_guards type).bind_ok (.ok rfl)

namespace Draft

theorem propertyType_guards (ix : IdIndex) (d : Draft) (n : Node) :
    Guards d.model.Bounded Eq (Indexed.propertyType ix d n) (propertyType ix d n) := by
  refine Guards.look_last (.free _) ?_
  rintro ⟨d₁, type⟩ ht hb
  obtain ⟨hg, key, -, hl⟩ := propertyType_spec ht
  exact hg.bounded hb key type hl

theorem property_guards (ix : IdIndex) (d : Draft) (n : Node) :
    Guards d.model.Bounded Eq (Indexed.property ix d n) (property ix d n) := by
  refine (propertyType_guards ix d n).bind ?_
  rintro ⟨d₁, type⟩ _ ht rfl
  obtain ⟨hg, key, -, hl⟩ := propertyType_spec ht
  have hname := (d₁.model.propertyName_guards type n).imp fun hb => hg.bounded hb key type hl
  refine hname.bind_ok ((Guards.free _).bind ?_)
  rintro multiplicity _ - rfl
  exact .ok rfl

/-- Lists of parts are guarded when the parts are. -/
theorem ReadsEach.guards {β : Type} {read : Draft → Node → Except Fault (Draft × β)}
    {readAll : Draft → List Node → Except Fault (Draft × List β)}
    {read' : Draft → Node → Except Halt (Draft × β)} (hr : ReadsEach read readAll)
    (part : ∀ d c, Guards d.model.Bounded Eq (read' d c) (read d c))
    (bounded : ∀ {d c d' b}, d.model.Bounded → read d c = .ok (d', b) → d'.model.Bounded)
    (d : Draft) (cs : List Node) :
    Guards d.model.Bounded Eq (Indexed.readEach read' d cs) (readAll d cs) := by
  induction cs generalizing d with
  | nil =>
    rw [hr.nil]
    exact .ok rfl
  | cons c rest ih =>
    rw [hr.cons]
    refine (part d c).bind ?_
    rintro ⟨d₁, b⟩ _ hb rfl
    refine ((ih d₁).imp fun hbound => bounded hbound hb).bind ?_
    rintro ⟨d₂, bs⟩ _ - rfl
    exact .ok rfl

theorem properties_guards (ix : IdIndex) (d : Draft) (ns : List Node) :
    Guards d.model.Bounded Eq (Indexed.readEach (Indexed.property ix) d ns)
      (properties ix d ns) :=
  (readsEach_properties ix).guards (property_guards ix)
    (fun hb hp => (property_spec hb hp).1.bounded hb) d ns

theorem generalization_guards (ix : IdIndex) (specific : Node) (d : Draft) (n : Node) :
    Guards d.model.Bounded Eq (Indexed.generalization ix specific d n)
      (generalization ix specific d n) := by
  unfold Indexed.generalization
  cases hg : generalization ix specific d n with
  | error f => exact .fault f
  | ok r =>
    obtain ⟨d₁, g⟩ := r
    have hlook (t : Handle) (ht : t ∈ g.targets) : Guards d.model.Bounded Eq
        (Indexed.entry d₁.model.elements t) (.ok (d₁.model.element t)) := by
      refine (d₁.model.element_guards t).imp fun hb => ?_
      obtain ⟨key, h, -, -, hlt, htargets⟩ := (generalization_spec hb hg).2.target
      rw [htargets, List.mem_singleton] at ht
      exact ht ▸ hlt
    exact (Guards.mapM_ok hlook).bind_ok (.ok rfl)

theorem generalizations_guards (ix : IdIndex) (specific : Node) (d : Draft) (ns : List Node) :
    Guards d.model.Bounded Eq (Indexed.readEach (Indexed.generalization ix specific) d ns)
      (generalizations ix specific d ns) :=
  (readsEach_generalizations ix specific).guards (generalization_guards ix specific)
    (fun hb hg => (generalization_spec hb hg).1.bounded hb) d ns

theorem fillMembers_guards (ix : IdIndex) (d : Draft) (h : Handle) (n : Node) :
    Guards (d.model.Bounded ∧ h < d.model.size) Eq (Indexed.fillMembers ix d h n)
      (fillMembers ix d h n) := by
  refine ((properties_guards ix d _).imp And.left).bind ?_
  rintro ⟨d₁, attributes⟩ _ hp rfl
  have hbounded (hb : d.model.Bounded) := (properties_spec hb hp).1
  refine ((generalizations_guards ix n d₁ _).imp fun hc => (hbounded hc.1).bounded hc.1).bind ?_
  rintro ⟨d₂, gs⟩ _ hg rfl
  refine .look (fun hc => ?_) fun _ _ => .ok rfl
  have hgrows := hbounded hc.1
  have hgrows' := (generalizations_spec (hgrows.bounded hc.1) hg).1
  exact Nat.lt_of_lt_of_le hc.2 (hgrows.keeps.trans hgrows'.keeps).size

end Draft

namespace Indexed

/-- The handles in the queue are looked at as they leave it. -/
def drain (ix : IdIndex) (d : Draft) : Except Halt Draft :=
  match _hq : d.queue with
  | [] => .ok d
  | (h, node) :: rest =>
      match _hf : fillMembers ix { d with queue := rest } h node with
      | .error e => .error e
      | .ok d' => drain ix d'
termination_by Draft.work ix d
decreasing_by
  have := Draft.work_fillMembers ((Draft.fillMembers_guards ix _ h node).eq_ok _hf)
  simp only [Draft.work, _hq, List.length_cons] at this ⊢
  omega

def addRoots (ix : IdIndex) (d : Draft) (position : Nat) : List Node → Except Halt Draft
  | [] => .ok d
  | node :: rest => do
      let (d, h) ← rootFor ix d position node
      let d ← drain ix { d with model := d.model.addRoot h }
      addRoots ix d (position + 1) rest

def ofNodes (ix : IdIndex) (roots : List Node) : Except Halt Model :=
  (addRoots ix {} 0 roots).map Draft.model

end Indexed

namespace Draft

/-- Draining is in range while all handles are, those in the queue included. -/
theorem drain_guards (ix : IdIndex) (d : Draft) :
    Guards d.InRange Eq (Indexed.drain ix d) (drain ix d) := by
  fun_induction Indexed.drain ix d with
  | case1 d hq =>
    rw [drain_nil hq]
    exact .ok rfl
  | case2 d h n rest hq e hf =>
    rw [drain_cons hq]
    have hguard := fillMembers_guards ix { d with queue := rest } h n
    rw [hf] at hguard
    generalize fillMembers ix { d with queue := rest } h n = y at hguard ⊢
    cases hguard with
    | fault f => exact .fault f
    | outOfRange hn =>
      exact .outOfRange fun hd => hn ⟨hd.model.table, hd.queue (h, n) (by simp [hq])⟩
  | case3 d h n rest hq d₁ hf ih =>
    have hfill := (fillMembers_guards ix { d with queue := rest } h n).eq_ok hf
    rw [drain_cons hq, hfill]
    exact ih.imp fun hd => (hd.pop hq).fill hfill

theorem associationFor_guards (ix : IdIndex) (d : Draft) (n : Node) :
    Guards d.model.Bounded Eq (Indexed.associationFor ix d n) (associationFor ix d n) := by
  unfold Indexed.associationFor
  split
  next a b hnone hends =>
    simp only [associationFor, hnone, hends]
    refine (property_guards ix d a).bind ?_
    rintro ⟨d₁, first⟩ _ hfirst rfl
    refine ((property_guards ix d₁ b).imp fun hb => (property_spec hb hfirst).1.bounded hb).bind ?_
    rintro ⟨d₂, second⟩ _ - rfl
    exact .look (fun _ => by simp [Model.size, Model.add]) fun _ _ => .ok rfl
  next => exact .free _

theorem placeRoot_guards (ix : IdIndex) (d : Draft) (position : Nat) (n : Node) :
    Guards d.model.Bounded Eq (Indexed.placeRoot ix d position n) (rootFor ix d position n) := by
  unfold Indexed.placeRoot
  split
  next hk =>
    simp only [rootFor, TypeKind.ofNode?, hk, Option.bind_some, TypeKind.ofText?, if_true]
    exact associationFor_guards ix d n
  next => exact .free _

theorem rootFor_guards (ix : IdIndex) (d : Draft) (position : Nat) (n : Node) :
    Guards d.InRange Eq (Indexed.rootFor ix d position n) (rootFor ix d position n) := by
  refine ((placeRoot_guards ix d position n).imp fun hd => hd.model.table).look_last ?_
  rintro ⟨d₁, h⟩ hr hd
  exact (hd.place hr).2

theorem addRoots_guards (ix : IdIndex) (d : Draft) (position : Nat) (ns : List Node) :
    Guards d.InRange Eq (Indexed.addRoots ix d position ns) (addRoots ix d position ns) := by
  induction ns generalizing d position with
  | nil => exact .ok rfl
  | cons n rest ih =>
    refine (rootFor_guards ix d position n).bind ?_
    rintro ⟨d₁, h⟩ _ hr rfl
    have hplaced (hd : d.InRange) := (hd.place hr).1.addRoot (hd.place hr).2
    refine ((drain_guards ix _).imp hplaced).bind ?_
    rintro d₂ _ hdrain rfl
    exact (ih d₂ (position + 1)).imp fun hd => (hplaced hd).drain hdrain

end Draft

/-- Reading a class model never looks at an index out of range. -/
theorem Model.ofNodes_guards (ix : IdIndex) (roots : List Node) :
    Guards True Eq (Indexed.ofNodes ix roots) (ofNodes ix roots) :=
  ((Draft.addRoots_guards ix {} 0 roots).imp fun _ => Draft.InRange.start).map
    fun _ _ => congrArg Draft.model

end ClassGrammar
