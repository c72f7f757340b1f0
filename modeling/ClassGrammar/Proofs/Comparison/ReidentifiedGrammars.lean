import ClassGrammar.Proofs.Linking.RunsLinkAll
import ClassGrammar.Proofs.Comparison.LockstepReading

/-! Grammars of models that are the same under other identifiers. Identifiers matter to an outline
only where the tokens of an association are compared with its ends, and they never reach the
grammar. -/
namespace ClassGrammar

/-- Whether a change of identifiers keeps apart the tokens of an association and the names of its
ends. -/
def Model.KeepsNames (s : String → String) (m : Model) : Prop :=
  ∀ h first second tokens, (m.element h).form = .association first second tokens →
    ∀ token ∈ tokens, ∀ p ∈ [first, second], p.name = s token ↔ p.name = token

section

variable (s : String → String)

structure NavigableEnd.Alike (e e' : NavigableEnd) : Prop where
  association : e.association.Alike s e'.association
  property : e.property.Alike s e'.property
  receiver : e'.receiver = e.receiver

/-- Whether two outlines are the same but for the identifiers of the ends that are inserted
later. -/
structure Outline.Alike (o o' : Outline) : Prop where
  grammar : o'.grammar = o.grammar
  owners : o'.owners = o.owners
  pending : o'.pending = o.pending
  ends : List.Forall₂ (NavigableEnd.Alike s) o.ends o'.ends

end

variable {s : String → String}

section Ends

variable {first first' second second' : Property} (hinj : Function.Injective s)
  (hfirst : first.Alike s first') (hsecond : second.Alike s second')
include hinj hfirst hsecond

/-- A token stands for the same end in both associations. -/
theorem endIndex?_alike {token : String}
    (hnames : ∀ p ∈ [first, second], p.name = s token ↔ p.name = token) :
    endIndex? first' second' (s token) = endIndex? first second token := by
  have hend {p p' : Property} (hp : p.Alike s p') (hname : p.name = s token ↔ p.name = token) :
      (p'.id == some (s token) || p'.name == s token) =
        (p.id == some token || p.name == token) := by
    have hid : p'.id = some (s token) ↔ p.id = some token := by
      rw [hp.id]
      show p.id.map s = (some token).map s ↔ p.id = some token
      exact (Option.map_injective hinj).eq_iff
    rw [Bool.eq_iff_iff]
    simp only [Bool.or_eq_true, beq_iff_eq, hid, hp.name, hname]
  simp only [endIndex?, List.findIdx?_cons, List.findIdx?_nil,
    hend hfirst (hnames first (by simp)), hend hsecond (hnames second (by simp))]

theorem navigableEnds?_alike {tokens : List String}
    (hnames : ∀ token ∈ tokens, ∀ p ∈ [first, second], p.name = s token ↔ p.name = token) :
    navigableEnds? first' second' (tokens.map s) = navigableEnds? first second tokens := by
  match tokens with
  | [] | [_, _] | _ :: _ :: _ :: _ => rfl
  | [token] =>
    have htoken := hnames token List.mem_cons_self
    simp only [List.map_cons, List.map_nil, navigableEnds?,
      endIndex?_alike hinj hfirst hsecond htoken]

theorem select_alike {e e' : Element} (he : e.Alike s e') (policy : ArityPolicy)
    {tokens : List String}
    (hnames : ∀ token ∈ tokens, ∀ p ∈ [first, second], p.name = s token ↔ p.name = token) :
    EndAlike (Fault.Alike s) (List.Forall₂ (NavigableEnd.Alike s))
      (policy.select e first second tokens) (policy.select e' first' second' (tokens.map s)) := by
  unfold ArityPolicy.select
  rw [navigableEnds?_alike hinj hfirst hsecond hnames]
  cases navigableEnds? first second tokens with
  | some positions =>
    refine .ok ?_
    rw [List.forall₂_map_left_iff, List.forall₂_map_right_iff, List.forall₂_same]
    intro k _
    unfold NavigableEnd.ofPosition
    split
    · exact ⟨he, hfirst, hsecond.type⟩
    · exact ⟨he, hsecond, hfirst.type⟩
  | none =>
    cases policy with
    | strict =>
      rw [List.length_map]
      exact .error ⟨.associationArity _ _ _, fun hs => by rw [he.describe hs]⟩
    | lenient => exact .ok .nil

end Ends

namespace Outline

variable {o o' : Outline} {m m' : Model}

theorem Alike.addInterface (ho : o.Alike s o') (h : Handle) (i : Interface) :
    (o.addInterface h i).Alike s (o'.addInterface h i) := by
  refine ⟨?_, ?_, ?_, ho.ends⟩ <;>
    simp only [Outline.addInterface, ho.grammar, ho.owners, ho.pending]

theorem Alike.addUnion (ho : o.Alike s o') (u : Union) :
    (o.addUnion u).Alike s (o'.addUnion u) :=
  ⟨by simp only [Outline.addUnion, ho.grammar], ho.owners, ho.pending, ho.ends⟩

theorem Alike.addAttribute (ho : o.Alike s o') (owner : Nat) (a : Attribute) :
    (o.addAttribute owner a).Alike s (o'.addAttribute owner a) := by
  refine ⟨?_, ho.owners, ?_, ho.ends⟩ <;>
    simp only [Outline.addAttribute, ho.grammar, ho.pending]

theorem Alike.addAttributes (ho : o.Alike s o') (owner : Nat) (as : List Attribute) :
    (o.addAttributes owner as).Alike s (o'.addAttributes owner as) := by
  induction as generalizing o o' with
  | nil => exact ho
  | cons a rest ih => exact ih (ho.addAttribute owner a)

theorem checkUnique_alike (ho : o.Alike s o') (name : String) :
    EndAlike (Fault.Alike s) Eq (o.checkUnique name) (o'.checkUnique name) :=
  .of_eq (by simp only [checkUnique, ho.grammar])

theorem ofProperty_alike (hm : m.Alike s m') {p p' : Property} (hp : p.Alike s p')
    (policy : OptionalityPolicy) (role : Role) :
    Attribute.ofProperty policy role p' (m'.element p'.type) =
      Attribute.ofProperty policy role p (m.element p.type) := by
  have htarget := hm.element p.type
  rw [hp.type]
  exact Attribute.ofProperty_congr hp.name hp.multiplicity hp.aggregation htarget.simpleType
    htarget.isDataType

theorem flatMap_targets_congr {gs gs' : List Generalization}
    (h : gs'.map (·.targets) = gs.map (·.targets)) :
    gs'.flatMap (·.targets) = gs.flatMap (·.targets) := by
  rw [List.flatMap_def, List.flatMap_def, h]

theorem map_ofProperty_alike (hm : m.Alike s m') {ps ps' : List Property}
    (hps : List.Forall₂ (Property.Alike s) ps ps') (policy : OptionalityPolicy) (role : Role) :
    (ps'.map fun p => Attribute.ofProperty policy role p (m'.element p.type)) =
      ps.map fun p => Attribute.ofProperty policy role p (m.element p.type) :=
  (map_eq_iff_forall₂.mpr (hps.imp fun _ _ hp => (ofProperty_alike hm hp policy role).symm)).symm

variable (hm : m.Alike s m') (settings : Settings)
include hm

theorem addElement_alike (hinj : Function.Injective s) (hnames : m.KeepsNames s)
    (ho : o.Alike s o') (h : Handle) :
    EndAlike (Fault.Alike s) (Alike s) (addElement settings m o h)
      (addElement settings m' o' h) := by
  have he := hm.element h
  unfold addElement
  simp only [he.name]
  match hf : (m.element h).form, (m'.element h).form, he.form with
  | _, _, .classifier members targets =>
    have hsupers := flatMap_targets_congr targets
    have hattributes := map_ofProperty_alike hm members settings.compositeOptionality .owned
    refine (checkUnique_alike ho (m.element h).name).bind fun _ _ _ => .ok ?_
    simp only [hsupers, hattributes, (hm.element _).name, ho.grammar]
    exact (ho.addInterface h _).addAttributes _ _
  | _, _, .dataType =>
    simp only
    split
    · exact .ok ho
    · exact (checkUnique_alike ho (m.element h).name).bind fun _ _ _ =>
        .ok (ho.addInterface h _)
  | _, _, .primitiveType => exact .ok ho
  | _, _, .enumeration names =>
    refine (checkUnique_alike ho (m.element h).name).bind fun _ _ _ => .ok ?_
    simp only [names]
    exact ho.addUnion _
  | .association first second tokens, _, .association hfirst hsecond =>
    refine (select_alike hinj hfirst hsecond he settings.associationArity
      (hnames h first second tokens hf)).bind fun _ _ hends => .ok ?_
    exact ⟨ho.grammar, ho.owners, ho.pending, List.rel_append ho.ends hends⟩

theorem addElements_alike (hinj : Function.Injective s) (hnames : m.KeepsNames s)
    (ho : o.Alike s o') (hs : List Handle) :
    EndAlike (Fault.Alike s) (Alike s) (addElements settings m o hs)
      (addElements settings m' o' hs) := by
  induction hs generalizing o o' with
  | nil => exact .ok ho
  | cons h rest ih => exact (addElement_alike hm settings hinj hnames ho h).bind fun _ _ => ih

theorem insertEnd_alike (ho : o.Alike s o') {e e' : NavigableEnd} (he : e.Alike s e') :
    EndAlike (Fault.Alike s) (Alike s) (insertEnd settings m o e)
      (insertEnd settings m' o' e') := by
  unfold insertEnd
  rw [ho.owners, he.receiver]
  cases o.owners.lookup e.receiver with
  | some owner =>
    simp only [ofProperty_alike hm he.property]
    exact .ok (ho.addAttribute owner _)
  | none =>
    refine .error ⟨.danglingReference _ _ _ _, fun hs => ?_⟩
    rw [(hm.element e.receiver).name, he.property.name, he.association.describe hs]

theorem insertEnds_alike (ho : o.Alike s o') {es es' : List NavigableEnd}
    (hes : List.Forall₂ (NavigableEnd.Alike s) es es') :
    EndAlike (Fault.Alike s) (Alike s) (insertEnds settings m o es)
      (insertEnds settings m' o' es') := by
  induction hes generalizing o o' with
  | nil => exact .ok ho
  | cons he _ ih => exact (insertEnd_alike hm settings ho he).bind fun _ _ => ih

/-- Models that are the same under other identifiers have outlines that differ in nothing that
reaches the grammar. -/
theorem ofModel_alike (hinj : Function.Injective s) (hnames : m.KeepsNames s) :
    EndAlike (Fault.Alike s) (Alike s) (ofModel settings m) (ofModel settings m') := by
  have hstart : (start settings).Alike s (start settings) := ⟨rfl, rfl, rfl, .nil⟩
  unfold ofModel
  rw [hm.roots]
  refine (addElements_alike hm settings hinj hnames hstart m.roots).bind fun o o' ho => ?_
  exact insertEnds_alike hm settings ho ho.ends

end Outline

/-- Documents that are the same under other identifiers have the same grammar, or none for the same
cause. -/
theorem transform_alike {roots roots' : List Node} (ha : Node.AlikeRoots s roots roots')
    (settings : Settings)
    (hnames : ∀ m, Model.ofNodes (.ofRoots roots) roots = .ok m → m.KeepsNames s) :
    EndAlike (Fault.Alike s) Eq (transform settings roots) (transform settings roots') := by
  refine (Model.ofNodes_alike ha).and_ok.bind fun m m' ⟨hok, hm⟩ => ?_
  refine (Outline.ofModel_alike hm settings ha.injective (hnames m hok)).bind fun o o' ho => ?_
  rw [ho.grammar, ho.pending]
  exact (EndAlike.of_eq rfl).bind fun _ _ hg => .ok (congrArg Grammar.dedupePrimitives hg)

end ClassGrammar
