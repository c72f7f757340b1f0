import ClassGrammar.Proofs.General.Outcome
import ClassGrammar.Transform
import Mathlib.Data.List.Forall2
import Mathlib.Logic.Relation

/-! Packages in a document. The members that a document lists are those that its model reaches
through packages only, in document order. So it makes no difference to a run how members are put
into packages. -/
namespace ClassGrammar

namespace Node

theorem weight_singleton_le {c : Node} {ns : List Node} (hc : c ∈ ns) : weight [c] ≤ weight ns := by
  obtain ⟨before, after, rfl⟩ := List.append_of_mem hc
  rw [weight_append, weight_cons, weight_cons]
  simp only [weight, List.flatMap_nil, List.length_nil]
  omega

/-- What a member stands for: itself, or what the members of the package that it is stand for. -/
def flatten (n : Node) : List Node :=
  if n.isPackage then n.members.attach.flatMap fun c => c.1.flatten else [n]
termination_by weight [n]
decreasing_by
  have hc := weight_singleton_le c.2
  have hn := n.weight_members_le
  rw [weight_cons n]
  omega

section

variable {n : Node}

theorem flatten_package (h : n.isPackage = true) : n.flatten = n.members.flatMap flatten := by
  rw [flatten, if_pos h, List.flatMap_def, List.attach_map_val, ← List.flatMap_def]

theorem flatten_member (h : n.isPackage = false) : n.flatten = [n] := by
  rw [flatten, if_neg (by simp [h])]

end

/-- Whether a path leads from some members to one that is not a package. It takes the position of a
member in each list, and enters the package there until it has arrived. -/
inductive Leads : List Node → List Nat → Node → Prop
  | member {ns : List Node} {k : Nat} {n : Node} (found : ns[k]? = some n)
      (isMember : n.isPackage = false) : Leads ns [k] n
  | inside {ns : List Node} {k : Nat} {path : List Nat} {p n : Node} (found : ns[k]? = some p)
      (isPackage : p.isPackage = true) (inner : Leads p.members path n) : Leads ns (k :: path) n

/-- Whether a list has each member that a path leads to at the path's place in document order, and
nothing else. -/
def Lists (ns listed : List Node) : Prop :=
  ∃ paths : List (List Nat), paths.Pairwise (· < ·) ∧ List.Forall₂ (Leads ns) paths listed ∧
    ∀ path n, Leads ns path n → path ∈ paths

/-- One list of members and another in which a run of them is put into a package, in the list itself
or somewhere inside of a package. -/
inductive Packs : List Node → List Node → Prop
  | run (before run after : List Node) {p : Node} (isPackage : p.isPackage = true)
      (holds : p.members = run) : Packs (before ++ run ++ after) (before ++ p :: after)
  | inside (before after : List Node) {p p' : Node} (isPackage : p.isPackage = true)
      (stays : p'.isPackage = true) (inner : Packs p.members p'.members) :
      Packs (before ++ p :: after) (before ++ p' :: after)

section Paths

variable {ns : List Node} {n p : Node} {k : Nat} {path : List Nat}

theorem leads_cons_iff : Leads ns (k :: path) n ↔ ∃ m, ns[k]? = some m ∧
    (m.isPackage = false ∧ path = [] ∧ m = n ∨ m.isPackage = true ∧ Leads m.members path n) := by
  constructor
  · intro h
    cases h with
    | member found isMember => exact ⟨n, found, .inl ⟨isMember, rfl, rfl⟩⟩
    | inside found isPackage inner => exact ⟨_, found, .inr ⟨isPackage, inner⟩⟩
  · rintro ⟨m, found, ⟨isMember, rfl, rfl⟩ | ⟨isPackage, inner⟩⟩
    · exact .member found isMember
    · exact .inside found isPackage inner

theorem not_leads_nil : ¬ Leads ns [] n := by
  intro h
  cases h

/-- Whether paths are those from one node on, in order. They are empty when it is a member. -/
def Tails (n : Node) (tails : List (List Nat)) : Prop :=
  tails.Pairwise (· < ·) ∧
    List.Forall₂ (fun tail m => Leads [n] (0 :: tail) m) tails n.flatten ∧
    ∀ tail m, Leads [n] (0 :: tail) m → tail ∈ tails

theorem leads_iff_tail {m : Node} (h : ns[k]? = some m) :
    Leads ns (k :: path) n ↔ Leads [m] (0 :: path) n := by
  simp [leads_cons_iff, h]

/-- The paths through some members are those of each in turn. The positions count from `start`. -/
theorem exists_paths (h : ∀ n ∈ ns, ∃ tails, n.Tails tails) (start : Nat) :
    ∃ paths : List (List Nat), paths.Pairwise (· < ·) ∧
      List.Forall₂ (fun path n => ∃ k tail, path = (start + k) :: tail ∧ Leads ns (k :: tail) n)
        paths (ns.flatMap flatten) ∧
      ∀ k tail n, Leads ns (k :: tail) n → (start + k) :: tail ∈ paths := by
  induction ns generalizing start with
  | nil => exact ⟨[], .nil, .nil, fun k tail n hl => by simp [leads_cons_iff] at hl⟩
  | cons m rest ih =>
    rw [List.forall_mem_cons] at h
    obtain ⟨tails, hsorted, hlisted, hall⟩ := h.1
    obtain ⟨paths, hsorted', hlisted', hall'⟩ := ih h.2 (start + 1)
    have hbeyond : ∀ path ∈ paths, ∃ k tail, path = (start + 1 + k) :: tail :=
      ((List.forall₂_and_left _ _).mp
        (hlisted'.imp fun _ _ ⟨k, tail, hpath, _⟩ => ⟨⟨k, tail, hpath⟩, trivial⟩)).1
    refine ⟨tails.map (start :: ·) ++ paths, ?_, ?_, fun k tail n hl => ?_⟩
    · refine List.pairwise_append.mpr ⟨?_, hsorted', ?_⟩
      · exact hsorted.map _ fun a b hab => List.cons_lt_cons_iff.mpr (.inr ⟨rfl, hab⟩)
      · intro a ha b hb
        obtain ⟨tail, -, rfl⟩ := List.mem_map.mp ha
        obtain ⟨k, tail', rfl⟩ := hbeyond b hb
        exact List.cons_lt_cons_iff.mpr (.inl (by omega))
    · rw [List.flatMap_cons]
      refine List.rel_append ?_ (hlisted'.imp ?_)
      · rw [List.forall₂_map_left_iff]
        exact hlisted.imp fun tail n hl => ⟨0, tail, rfl, (leads_iff_tail rfl).mpr hl⟩
      · rintro path n ⟨k, tail, rfl, hl⟩
        obtain ⟨c, hc, -⟩ := leads_cons_iff.mp hl
        refine ⟨k + 1, tail, by rw [Nat.add_right_comm, Nat.add_assoc], ?_⟩
        rwa [leads_iff_tail (m := c) (by simpa using hc), ← leads_iff_tail hc]
    · obtain ⟨c, hc, -⟩ := leads_cons_iff.mp hl
      rw [leads_iff_tail hc] at hl
      cases k with
      | zero =>
        obtain rfl : m = c := by simpa using hc
        exact List.mem_append_left _ (List.mem_map_of_mem (hall tail n hl))
      | succ k =>
        have hmem := hall' k tail n ((leads_iff_tail (m := c) (by simpa using hc)).mpr hl)
        rw [Nat.add_right_comm, Nat.add_assoc] at hmem
        exact List.mem_append_right _ hmem

theorem exists_tails (n : Node) : ∃ tails, n.Tails tails := by
  induction n using induction_children with
  | h n ih =>
    cases hp : n.isPackage with
    | true =>
      obtain ⟨paths, hsorted, hlisted, hall⟩ := exists_paths (ih "packagedElement") 0
      have hinside {tail : List Nat} {m : Node} :
          Leads [n] (0 :: tail) m ↔ Leads n.members tail m := by simp [leads_cons_iff, hp]
      refine ⟨paths, hsorted, ?_, fun tail m hl => ?_⟩
      · rw [flatten_package hp]
        refine hlisted.imp ?_
        rintro path m ⟨k, tail, rfl, hl⟩
        rw [Nat.zero_add]
        exact hinside.mpr hl
      · cases tail with
        | nil => exact absurd (hinside.mp hl) not_leads_nil
        | cons k tail => simpa using hall k tail m (hinside.mp hl)
    | false =>
      refine ⟨[[]], by simp, ?_, fun tail m hl => ?_⟩
      · rw [flatten_member hp]
        exact .cons (.member rfl hp) .nil
      · obtain ⟨c, hc, ⟨-, rfl, -⟩ | ⟨hpackage, -⟩⟩ := leads_cons_iff.mp hl
        · exact List.mem_singleton_self _
        · obtain rfl : n = c := by simpa using hc
          rw [hp] at hpackage
          cases hpackage

/-- Flattening lists the members that paths lead to, each once and in document order. -/
theorem lists_flatMap_flatten (ns : List Node) : Lists ns (ns.flatMap flatten) := by
  have htails : ∀ n ∈ ns, ∃ tails, n.Tails tails := fun n _ => exists_tails n
  obtain ⟨paths, hsorted, hlisted, hall⟩ := exists_paths htails 0
  refine ⟨paths, hsorted, hlisted.imp ?_, fun path n hl => ?_⟩
  · rintro path n ⟨k, tail, rfl, hl⟩
    rwa [Nat.zero_add]
  · cases path with
    | nil => exact absurd hl not_leads_nil
    | cons k tail => simpa using hall k tail n hl

theorem Leads.not_isPackage (h : Leads ns path n) : n.isPackage = false := by
  induction h with
  | member _ isMember => exact isMember
  | inside _ _ _ ih => exact ih

end Paths

/-- Members stand for the same when some of them are put into a package. -/
theorem Packs.flatMap_flatten {ns ns' : List Node} (h : Packs ns ns') :
    ns'.flatMap flatten = ns.flatMap flatten := by
  induction h with
  | run before run after isPackage holds =>
    simp only [List.flatMap_append, List.flatMap_cons, flatten_package isPackage, holds,
      List.append_assoc]
  | inside before after isPackage stays _ ih =>
    simp only [List.flatMap_append, List.flatMap_cons, flatten_package isPackage,
      flatten_package stays, ih]

end Node

namespace Document

/-- What is unpacked from a stack of lists is what all members in them stand for, the innermost
list first. -/
theorem unpack_eq (lists : List (List Node)) :
    unpack lists = lists.flatten.flatMap Node.flatten := by
  fun_induction unpack lists with
  | case1 => rfl
  | case2 rest ih => exact ih
  | case3 n ns rest hp ih =>
    rw [ih]
    simp only [List.flatten_cons, List.cons_append, List.flatMap_cons, List.flatMap_append,
      Node.flatten_package hp]
  | case4 n ns rest hp ih =>
    rw [ih]
    simp only [List.flatten_cons, List.cons_append, List.flatMap_cons, List.nil_append,
      Node.flatten_member (Bool.eq_false_iff.mpr hp)]

theorem packagedElements_eq (d : Document) :
    d.packagedElements = d.model.map fun m => m.members.flatMap Node.flatten := by
  simp [packagedElements, unpack_eq]

/-- Whether a second document is a first one with a run of members put into a package. -/
def Packs (d d' : Document) : Prop :=
  ∃ m m', d.model = .ok m ∧ d'.model = .ok m' ∧ Node.Packs m.members m'.members

theorem Packs.packagedElements {d d' : Document} (h : d.Packs d') :
    d'.packagedElements = d.packagedElements := by
  obtain ⟨m, m', hm, hm', hp⟩ := h
  rw [packagedElements_eq, packagedElements_eq, hm, hm', Except.map, Except.map,
    hp.flatMap_flatten]

/-- The members of a document are those that its model reaches through packages only, each once and
in document order. Putting runs of members into packages, again and again, changes neither the
grammar nor the fault of a run on them. -/
theorem packagedElements_transparent {d : Document} {m : Node} (hm : d.model = .ok m) :
    d.packagedElements = .ok (m.members.flatMap Node.flatten) ∧
    Node.Lists m.members (m.members.flatMap Node.flatten) ∧
    (∀ n ∈ m.members.flatMap Node.flatten, n.isPackage = false) ∧
    ∀ d', Relation.ReflTransGen Packs d d' → ∀ s : Settings,
      d'.packagedElements >>= transform s = d.packagedElements >>= transform s := by
  have hlists := Node.lists_flatMap_flatten m.members
  refine ⟨?_, hlists, ?_, fun d' h s => ?_⟩
  · rw [packagedElements_eq, hm]
    rfl
  · obtain ⟨paths, -, hlisted, -⟩ := hlists
    have hmembers := hlisted.flip.imp fun n path (hl : Node.Leads m.members path n) =>
      And.intro hl.not_isPackage trivial
    exact ((List.forall₂_and_left _ _).mp hmembers).1
  · have hsame : d'.packagedElements = d.packagedElements := by
      induction h with
      | refl => rfl
      | tail _ hp ih => exact hp.packagedElements.trans ih
    rw [hsame]

/-- Orders of items, with the states of an order. -/
def orderMembers : List Node := [
  .mk [.text "@_xmi:type" "uml:Class", .text "@_xmi:id" "order", .text "@_name" "Order",
    .many "ownedAttribute" [.mk [.text "@_name" "item", .text "@_type" "item"],
      .mk [.text "@_name" "state", .text "@_type" "state"]]],
  .mk [.text "@_xmi:type" "uml:Class", .text "@_xmi:id" "item", .text "@_name" "Item"],
  .mk [.text "@_xmi:type" "uml:Enumeration", .text "@_xmi:id" "state", .text "@_name" "State",
    .one "ownedLiteral" (.mk [.text "@_name" "open"])]]

def package (members : List Node) : Node :=
  .mk [.text "@_xmi:type" "uml:Package", .many "packagedElement" members]

/-- A document whose model has the given members. -/
def ofMembers (members : List Node) : Document :=
  ⟨.mk [.one "uml:Model" (.mk [.many "packagedElement" members])]⟩

/-- Items and states in a package, with the items in a package of their own. -/
def packedOrders : Document :=
  ofMembers (orderMembers.take 1 ++
    [package (package ((orderMembers.drop 1).take 1) :: orderMembers.drop 2)])

def ordersGrammar : Grammar where
  name := "MyGrammar"
  entryRule := "Model"
  interfaces := [
    ⟨"Order", [], [⟨"item", false, .reference (.named ⟨"Item", some (.interface 1)⟩)⟩,
      ⟨"state", false, .simple (.named ⟨"State", some (.union 0)⟩)⟩]⟩,
    ⟨"Item", [], []⟩]
  unions := [⟨"State", ["open"]⟩]

theorem orders_packed :
    (ofMembers orderMembers).model = .ok (.mk [.many "packagedElement" orderMembers]) ∧
    Relation.ReflTransGen Packs (ofMembers orderMembers) packedOrders ∧
    packedOrders.packagedElements >>= transform {} = .ok ordersGrammar := by
  have hmodel (members : List Node) :
      (ofMembers members).model = .ok (.mk [.many "packagedElement" members]) := rfl
  have hfirst : Node.Packs orderMembers (orderMembers.take 1 ++ [package (orderMembers.drop 1)]) :=
    .run (orderMembers.take 1) (orderMembers.drop 1) [] rfl rfl
  have hsecond : Node.Packs (orderMembers.take 1 ++ [package (orderMembers.drop 1)])
      (orderMembers.take 1 ++
        [package (package ((orderMembers.drop 1).take 1) :: orderMembers.drop 2)]) :=
    .inside (orderMembers.take 1) [] rfl rfl
      (.run [] ((orderMembers.drop 1).take 1) (orderMembers.drop 2) rfl rfl)
  have hpacked : Relation.ReflTransGen Packs (ofMembers orderMembers) packedOrders :=
    .tail (.single ⟨_, _, hmodel _, hmodel _, hfirst⟩) ⟨_, _, hmodel _, hmodel _, hsecond⟩
  have hrun : (ofMembers orderMembers).packagedElements >>= transform {} = .ok ordersGrammar := by
    decide +kernel
  have hsame := (packagedElements_transparent (hmodel _)).2.2.2 _ hpacked {}
  exact ⟨hmodel _, hpacked, hsame.trans hrun⟩

end Document
end ClassGrammar
