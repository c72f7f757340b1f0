import ClassGrammar.Model.Draft

/-! Reading a class model from top-level nodes. After each of them the queue of classes is worked
off. The work ends because a class enters the queue only when its identifier becomes known: the
nodes of the index that are still unknown, together with the classes in the queue, grow fewer
with each class taken from it. -/
namespace ClassGrammar

/-- The number of indexed nodes whose identifiers have no element. -/
def Model.unknown (ix : IdIndex) (m : Model) : Nat :=
  ix.nodes.countP fun n => (n.id?.bind m.lookup).isNone

namespace Draft

/-- The classes in the queue and those that may still enter it. -/
def work (ix : IdIndex) (d : Draft) : Nat := d.model.unknown ix + d.queue.length

theorem countP_lt {α : Type} {p q : α → Bool} {l : List α} {a : α} (ha : a ∈ l)
    (hpq : ∀ x ∈ l, p x = true → q x = true) (hp : p a = false) (hq : q a = true) :
    l.countP p < l.countP q := by
  induction l with
  | nil => simp at ha
  | cons b l ih =>
    have hle : l.countP p ≤ l.countP q :=
      List.countP_mono_left fun x hx => hpq x (List.mem_cons_of_mem b hx)
    have hb := hpq b List.mem_cons_self
    rcases List.mem_cons.mp ha with rfl | ha
    · simp only [List.countP_cons, hp, hq]
      simp
      omega
    · have hlt := ih ha fun x hx => hpq x (List.mem_cons_of_mem b hx)
      simp only [List.countP_cons]
      cases hbp : p b <;> simp_all
      omega

theorem unknown_le {ix : IdIndex} {m m' : Model}
    (h : ∀ key, (m.lookup key).isSome → (m'.lookup key).isSome) :
    m'.unknown ix ≤ m.unknown ix := by
  refine List.countP_mono_left fun n _ hn => ?_
  cases hid : n.id? with
  | none => rfl
  | some id =>
    have hk := h id
    simp only [hid, Option.bind_some, Option.isNone_iff_eq_none] at hn ⊢
    cases hm : m.lookup id with
    | none => rfl
    | some _ => simp [hm, hn] at hk

theorem lookup_add_isSome {m : Model} {e : Element} {key : String}
    (h : (m.lookup key).isSome) : ((m.add e).lookup key).isSome := by
  rw [Model.lookup_add]
  split <;> simp [h]

theorem lookup_register_isSome {m : Model} {k key : String} {h : Handle}
    (hk : (m.lookup key).isSome) : ((m.register k h).lookup key).isSome := by
  rw [Model.lookup_register]
  split <;> simp [hk]

theorem unknown_add_lt {ix : IdIndex} {m : Model} {e : Element} {n : Node} (hn : n ∈ ix.nodes)
    (hid : e.id = n.id?) (hsome : n.id?.isSome) (hm : n.id?.bind m.lookup = none) :
    (m.add e).unknown ix < m.unknown ix := by
  obtain ⟨id, hi⟩ := Option.isSome_iff_exists.mp hsome
  refine countP_lt hn (fun x _ hx => ?_) ?_ (by simp [hm])
  · cases hx' : x.id? with
    | none => rfl
    | some k =>
      simp only [hx', Option.bind_some, Option.isNone_iff_eq_none, Model.lookup_add] at hx ⊢
      split at hx <;> simp_all
  · simp [hi, Model.lookup_add, hid]

theorem id_of_readElement {kind : TypeKind} {n : Node} {e : Element}
    (h : readElement kind n = .ok e) : e.id = n.id? := by
  simp only [readElement, bind, Except.bind, pure, Except.pure] at h
  split at h
  · cases h
  · split at h
    · cases h
    · cases h
      rfl

theorem work_typeFor {ix : IdIndex} {d d' : Draft} {kind : TypeKind} {n : Node} {h : Handle}
    (hn : n ∈ ix.nodes) (hsome : n.id?.isSome) (hd : d.typeFor kind n = .ok (d', h)) :
    work ix d' ≤ work ix d := by
  unfold typeFor at hd
  split at hd
  · cases hd
    exact Nat.le_refl _
  · rename_i hm
    simp only [bind, Except.bind, pure, Except.pure] at hd
    split at hd
    · cases hd
    · rename_i e he
      cases hd
      have := unknown_add_lt hn (id_of_readElement he) hsome hm
      unfold work
      split <;> simp <;> omega

theorem work_libraryType {ix : IdIndex} {d d' : Draft} {href : String} {kind : Option String}
    {owner : Node} {h : Handle} (hd : d.libraryType href kind owner = .ok (d', h)) :
    work ix d' ≤ work ix d := by
  unfold libraryType at hd
  split at hd
  · cases hd
    exact Nat.le_refl _
  · split at hd
    · cases hd
      exact Nat.add_le_add_right
        (unknown_le fun _ hk => lookup_register_isSome (lookup_add_isSome hk)) _
    · cases hd

theorem resolve_mem {ix : IdIndex} {id context : String} {n : Node}
    (h : ix.resolve id context = .ok n) : n ∈ ix.nodes ∧ n.id? = some id := by
  unfold IdIndex.resolve at h
  split at h
  · cases h
    exact IdIndex.get?_mem (by assumption)
  · cases h

theorem work_propertyType {ix : IdIndex} {d d' : Draft} {n : Node} {h : Handle}
    (hd : propertyType ix d n = .ok (d', h)) : work ix d' ≤ work ix d := by
  unfold propertyType at hd
  split at hd
  · simp only [bind, Except.bind] at hd
    split at hd
    · cases hd
    · rename_i target ht
      have hm := resolve_mem ht
      split at hd
      · exact work_typeFor hm.1 (by simp [hm.2]) hd
      · cases hd
  · split at hd
    · cases hd
    · split at hd
      · cases hd
      · exact work_libraryType hd

theorem work_property {ix : IdIndex} {d d' : Draft} {n : Node} {p : Property}
    (hd : property ix d n = .ok (d', p)) : work ix d' ≤ work ix d := by
  simp only [property, bind, Except.bind, pure, Except.pure] at hd
  split at hd
  · cases hd
  · rename_i r hr
    split at hd
    · cases hd
    · cases hd
      exact work_propertyType hr

theorem work_properties {ix : IdIndex} {d d' : Draft} {ns : List Node} {ps : List Property}
    (hd : properties ix d ns = .ok (d', ps)) : work ix d' ≤ work ix d := by
  induction ns generalizing d ps with
  | nil =>
    cases hd
    exact Nat.le_refl _
  | cons n ns ih =>
    simp only [properties, bind, Except.bind, pure, Except.pure] at hd
    split at hd
    · cases hd
    · rename_i hp
      split at hd
      · cases hd
      · rename_i hps
        cases hd
        exact Nat.le_trans (ih hps) (work_property hp)

theorem work_generalization {ix : IdIndex} {specific : Node} {d d' : Draft} {n : Node}
    {g : Generalization} (hd : generalization ix specific d n = .ok (d', g)) :
    work ix d' ≤ work ix d := by
  unfold generalization at hd
  split at hd
  · cases hd
  · simp only [bind, Except.bind, pure, Except.pure] at hd
    split at hd
    · cases hd
    · rename_i general hg
      have hm := resolve_mem hg
      split at hd
      · split at hd
        · cases hd
        · rename_i ht
          cases hd
          exact work_typeFor hm.1 (by simp [hm.2]) ht
      · cases hd

theorem work_generalizations {ix : IdIndex} {specific : Node} {d d' : Draft} {ns : List Node}
    {gs : List Generalization} (hd : generalizations ix specific d ns = .ok (d', gs)) :
    work ix d' ≤ work ix d := by
  induction ns generalizing d gs with
  | nil =>
    cases hd
    exact Nat.le_refl _
  | cons n ns ih =>
    simp only [generalizations, bind, Except.bind, pure, Except.pure] at hd
    split at hd
    · cases hd
    · rename_i hp
      split at hd
      · cases hd
      · rename_i hps
        cases hd
        exact Nat.le_trans (ih hps) (work_generalization hp)

theorem work_fillMembers {ix : IdIndex} {d d' : Draft} {h : Handle} {n : Node}
    (hd : fillMembers ix d h n = .ok d') : work ix d' ≤ work ix d := by
  simp only [fillMembers, bind, Except.bind, pure, Except.pure] at hd
  split at hd
  · cases hd
  · rename_i hp
    split at hd
    · cases hd
    · rename_i hg
      cases hd
      have hle := work_generalizations hg
      exact Nat.le_trans hle (work_properties hp)

/-- Reads the members of the classes in the queue, and of those that enter it meanwhile. -/
def drain (ix : IdIndex) (d : Draft) : Except Fault Draft :=
  match _hq : d.queue with
  | [] => .ok d
  | (h, node) :: rest =>
      match _hf : fillMembers ix { d with queue := rest } h node with
      | .error f => .error f
      | .ok d' => drain ix d'
termination_by work ix d
decreasing_by
  have := work_fillMembers _hf
  simp only [work, _hq, List.length_cons] at this ⊢
  omega

/-- Adds the top-level nodes from a position on. -/
def addRoots (ix : IdIndex) (d : Draft) (position : Nat) : List Node → Except Fault Draft
  | [] => .ok d
  | node :: rest => do
      let (d, h) ← rootFor ix d position node
      let d ← drain ix { d with model := d.model.addRoot h }
      addRoots ix d (position + 1) rest

end Draft

/-- The class model of the top-level nodes. -/
def Model.ofNodes (ix : IdIndex) (roots : List Node) : Except Fault Model :=
  (Draft.addRoots ix {} 0 roots).map Draft.model

theorem Model.ofNodes_eq_ok {ix : IdIndex} {roots : List Node} {m : Model} :
    Model.ofNodes ix roots = .ok m ↔
      ∃ d, Draft.addRoots ix {} 0 roots = .ok d ∧ d.model = m := by
  unfold ofNodes
  cases Draft.addRoots ix {} 0 roots with
  | error f => simp [Except.map]
  | ok d => simp [Except.map]

end ClassGrammar
