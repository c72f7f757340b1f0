import ClassGrammar.Proofs.Outlines.RunOutcome

/-! The order of the top-level nodes. It decides the positions of declarations and, through the
associations, the order of inserted attributes; apart from that, runs over the same nodes agree. -/
namespace ClassGrammar

namespace Node

variable {roots roots' : List Node}

theorem preorderAll_perm (h : roots.Perm roots') :
    (preorderAll roots).Perm (preorderAll roots') := by
  rw [preorderAll_eq_flatMap, preorderAll_eq_flatMap]
  exact h.flatMap_right preorder

theorem Apart.perm (hap : Apart roots) (h : roots.Perm roots') : Apart roots' := by
  have hids : (ids roots).Perm (ids roots') := (preorderAll_perm h).filterMap id?
  have hhrefs : (libraryHrefs roots).Perm (libraryHrefs roots') :=
    (preorderAll_perm h).flatMap_right _
  constructor
  · exact hids.nodup_iff.mp hap.distinct
  · intro id hid hhref
    exact hap.foreign id (hids.mem_iff.mpr hid) (hhrefs.mem_iff.mpr hhref)

theorem HrefsAgree.perm (hagree : HrefsAgree roots) (h : roots.Perm roots') :
    HrefsAgree roots' := by
  have htypes : (libraryTypes roots).Perm (libraryTypes roots') :=
    (preorderAll_perm h).flatMap_right _
  intro p hp q hq
  exact hagree p (htypes.mem_iff.mpr hp) q (htypes.mem_iff.mpr hq)

/-- The index of distinct identifiers does not depend on the order in which the nodes are met. -/
theorem Apart.get?_perm (hap : Apart roots) (h : roots.Perm roots') :
    (IdIndex.ofRoots roots).get? = (IdIndex.ofRoots roots').get? := by
  have hfound {roots roots' : List Node} (hap : Apart roots') (h : roots.Perm roots') {id : String}
      {n : Node} (hn : (IdIndex.ofRoots roots).get? id = some n) :
      (IdIndex.ofRoots roots').get? id = some n := by
    have hmem := (preorderAll_perm h).mem_iff.mp (IdIndex.mem_of_get?_ofRoots hn)
    exact (hap.ownsId hmem id (IdIndex.get?_mem hn).2).1
  funext id
  apply Option.ext
  intro n
  exact ⟨hfound (hap.perm h) h, hfound hap h.symm⟩

variable {find : String → Option Node} {s : Settings}

theorem Needed.mono {n : Node} (hn : n.Needed find roots) (h : roots ⊆ roots') :
    n.Needed find roots' := by
  induction hn with
  | root mem => exact .root (h mem)
  | type _ child key found ih => exact .type ih child key found
  | general _ isClass child key found ih => exact .general ih isClass child key found

theorem Outlined.perm (ho : Outlined find s roots) (h : roots.Perm roots') :
    Outlined find s roots' := by
  constructor
  · exact (h.filterMap declaredName?).nodup_iff.mp ho.unique
  · intro n hn
    exact ho.arity n (h.mem_iff.mpr hn)
  · intro pair hpair
    obtain ⟨n, hn, hreceives⟩ := ho.owned pair ((h.flatMap_right _).mem_iff.mpr hpair)
    exact ⟨n, h.mem_iff.mp hn, hreceives⟩

/-- Nodes in another order declare the same, since the associations come in their old order. -/
theorem grammar_perm (find : String → Option Node) (s : Settings) (h : roots.Perm roots')
    (hassociations : roots.filter isAssociation = roots'.filter isAssociation) :
    (grammar find s roots).interfaces.Perm (grammar find s roots').interfaces ∧
      (grammar find s roots).unions.Perm (grammar find s roots').unions := by
  constructor
  · unfold grammar
    rw [hassociations]
    exact (h.filter declaresInterface).map _
  · exact h.filterMap union?

end Node

/-- Whether two grammars declare the same types, but for the positions of declarations. Without its
targets an interface shows its name, its super types, and its attributes in their order. -/
structure Grammar.SameTypes (g g' : Grammar) : Prop where
  interfaceNames : (g.interfaces.map (·.name)).Perm (g'.interfaces.map (·.name))
  unionNames : (g.unions.map (·.name)).Perm (g'.unions.map (·.name))
  interfaces : ∀ i ∈ g.interfaces, ∀ i' ∈ g'.interfaces, i.name = i'.name →
    i.unlinked = i'.unlinked
  unions : ∀ u ∈ g.unions, ∀ u' ∈ g'.unions, u.name = u'.name → u = u'
  primitives : ∀ p, p ∈ g.primitives ↔ p ∈ g'.primitives

/-- In lists that agree up to order, a key without repetition leads to the same value. -/
theorem eq_of_perm_of_nodup {α β κ : Type} {f : α → β} {key : α → κ} {l l' : List α}
    (hp : (l.map f).Perm (l'.map f)) (hn : (l'.map key).Nodup)
    (hkey : ∀ a b, f a = f b → key a = key b) {a a' : α} (ha : a ∈ l) (ha' : a' ∈ l')
    (he : key a = key a') : f a = f a' := by
  obtain ⟨b, hb, hfb⟩ := List.mem_map.mp (hp.mem_iff.mp (List.mem_map_of_mem ha))
  have hsame : key b = key a' := (hkey b a hfb).trans he
  rw [← hfb, List.inj_on_of_nodup_map hn hb ha' hsame]

/-- Grammars with the same declarations up to order declare the same types under each name. -/
theorem Grammar.sameTypes_of_perm {g g' : Grammar} (hn : g'.declared.Nodup)
    (hi : (g.interfaces.map Interface.unlinked).Perm (g'.interfaces.map Interface.unlinked))
    (hu : g.unions.Perm g'.unions) (hp : ∀ p, p ∈ g.primitives ↔ p ∈ g'.primitives) :
    g.SameTypes g' := by
  obtain ⟨hni, hnu, -⟩ := List.nodup_append.mp hn
  constructor
  · have hnames := hi.map (·.name)
    rwa [List.map_map, List.map_map] at hnames
  · exact hu.map (·.name)
  · intro i him i' him' he
    have hkey (a b : Interface) (h : a.unlinked = b.unlinked) : a.name = b.name := by
      have hname : a.unlinked.name = b.unlinked.name := by rw [h]
      exact hname
    exact eq_of_perm_of_nodup hi hni hkey him him' he
  · intro u hum u' hum' he
    have hid : (g.unions.map id).Perm (g'.unions.map id) := by rwa [List.map_id, List.map_id]
    exact eq_of_perm_of_nodup hid hnu (fun _ _ h => congrArg Union.name h) hum hum' he
  · exact hp

section Runs

variable {s : Settings} {roots roots' : List Node}

theorem nodup_declared_of_transform {g : Grammar} (h : transform s roots = .ok g) :
    g.declared.Nodup := by
  obtain ⟨m, o, g', -, ho, hlinked, rfl⟩ := transform_eq_ok.mp h
  have hlinks := Grammar.links_of_linked hlinked
  have hdeclared : g'.dedupePrimitives.declared = o.grammar.declared := by
    change g'.interfaces.map (·.name) ++ g'.unions.map (·.name) = _
    rw [hlinks.names, hlinks.unions, Grammar.declared]
  rw [hdeclared]
  exact Outline.nodup_declared_of_ofModel ho

theorem exists_transform_of_perm (hap : Node.Apart roots) (hagree : Node.HrefsAgree roots)
    (hperm : roots.Perm roots')
    (hassociations : roots.filter Node.isAssociation = roots'.filter Node.isAssociation)
    (h : ∃ g, transform s roots = .ok g) : ∃ g', transform s roots' = .ok g' := by
  obtain ⟨hsound, houtlined, hclosed⟩ := (exists_transform_iff hap hagree).mp h
  obtain ⟨hi, hu⟩ := Node.grammar_perm (IdIndex.ofRoots roots).get? s hperm hassociations
  rw [exists_transform_iff (hap.perm hperm) (hagree.perm hperm), ← hap.get?_perm hperm]
  refine ⟨?_, houtlined.perm hperm, (Grammar.closed_congr hi hu).mp hclosed⟩
  intro n hn
  exact hsound n (hn.mono hperm.symm.subset)

/-- Runs over the same top-level nodes in another order succeed together and declare the same types,
as long as the associations keep their order. -/
theorem transform_perm (hap : Node.Apart roots) (hagree : Node.HrefsAgree roots)
    (hperm : roots.Perm roots')
    (hassociations : roots.filter Node.isAssociation = roots'.filter Node.isAssociation) :
    ((∃ g, transform s roots = .ok g) ↔ ∃ g', transform s roots' = .ok g') ∧
      ∀ g g', transform s roots = .ok g → transform s roots' = .ok g' → g.SameTypes g' := by
  have hap' := hap.perm hperm
  have hagree' := hagree.perm hperm
  refine ⟨⟨exists_transform_of_perm hap hagree hperm hassociations,
    exists_transform_of_perm hap' hagree' hperm.symm hassociations.symm⟩, ?_⟩
  intro g g' hg hg'
  obtain ⟨hi, hu, hp⟩ := transform_eq_grammar hap hagree hg
  obtain ⟨hi', hu', hp'⟩ := transform_eq_grammar hap' hagree' hg'
  rw [← hap.get?_perm hperm] at hi' hu' hp'
  obtain ⟨hinterfaces, hunions⟩ := Node.grammar_perm (IdIndex.ofRoots roots).get? s hperm
    hassociations
  apply Grammar.sameTypes_of_perm (nodup_declared_of_transform hg')
  · rwa [hi, hi']
  · rwa [hu, hu']
  · intro p
    have hprimitives := (hinterfaces.flatMap_right (·.attributes)).filterMap (·.type.primitive?)
    rw [hp, hp']
    exact hprimitives.mem_iff

theorem machine_reversed : Node.Apart machine ∧ Node.HrefsAgree machine ∧
    machine.Perm machine.reverse ∧
    machine.filter Node.isAssociation = machine.reverse.filter Node.isAssociation ∧
    transform {} machine = .ok machineGrammar ∧
    ∃ g', transform {} machine.reverse = .ok g' ∧ machineGrammar.SameTypes g' := by
  have hap : Node.Apart machine := by decide +kernel
  have hagree : Node.HrefsAgree machine := by decide +kernel
  have hperm : machine.Perm machine.reverse := (List.reverse_perm machine).symm
  have hassociations :
      machine.filter Node.isAssociation = machine.reverse.filter Node.isAssociation := by
    rw [List.filter_reverse]
    rfl
  obtain ⟨hsucceeds, hsame⟩ := transform_perm (s := {}) hap hagree hperm hassociations
  obtain ⟨g', hg'⟩ := hsucceeds.mp ⟨machineGrammar, transform_machine⟩
  exact ⟨hap, hagree, hperm, hassociations, transform_machine, g', hg',
    hsame machineGrammar g' transform_machine hg'⟩

end Runs
end ClassGrammar
