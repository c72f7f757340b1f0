import ClassGrammar.Primitive
import Mathlib.Data.List.Basic
import Mathlib.Data.List.Nodup
import Mathlib.Data.List.Perm.Basic

/-! Lists without repetitions. What is left of a list has its members, each once and in the order of
their first positions; this determines it. The primitive types of a grammar are listed so. -/
namespace ClassGrammar

section

variable {α : Type} [DecidableEq α] {xs ys l l' : List α}

/-- Whether a list has the members of another one, each once and in the order of first positions. -/
structure FirstOccurrences (xs l : List α) : Prop where
  nodup : l.Nodup
  mem : ∀ x, x ∈ l ↔ x ∈ xs
  order : l.Pairwise fun x y => xs.idxOf x < xs.idxOf y

namespace FirstOccurrences

theorem unique (h : FirstOccurrences xs l) (h' : FirstOccurrences xs l') : l = l' := by
  have hperm : l.Perm l' := by
    rw [List.perm_ext_iff_of_nodup h.nodup h'.nodup]
    exact fun x => (h.mem x).trans (h'.mem x).symm
  exact hperm.eq_of_pairwise (fun x y _ _ hxy hyx => absurd hxy (Nat.lt_asymm hyx)) h.order h'.order

theorem nil : FirstOccurrences ([] : List α) [] := ⟨List.nodup_nil, fun _ => Iff.rfl, .nil⟩

theorem singleton (x : α) : FirstOccurrences [x] [x] :=
  ⟨List.nodup_singleton x, fun _ => Iff.rfl, List.pairwise_singleton _ x⟩

/-- What the second of two lists leaves after the first one are its members that are new. -/
theorem append (h : FirstOccurrences xs l) (h' : FirstOccurrences ys l') :
    FirstOccurrences (xs ++ ys) (l ++ l'.filter (· ∉ xs)) := by
  have hnew {y : α} (hy : y ∈ l'.filter (· ∉ xs)) : y ∉ xs := by
    simpa using (List.mem_filter.mp hy).2
  have hold {x : α} (hx : x ∈ l) : (xs ++ ys).idxOf x = xs.idxOf x :=
    List.idxOf_append_of_mem ((h.mem x).mp hx)
  refine ⟨?_, fun x => ?_, ?_⟩
  · refine h.nodup.append (h'.nodup.filter _) fun x hx hx' => ?_
    exact hnew hx' ((h.mem x).mp hx)
  · rw [List.mem_append, List.mem_filter, List.mem_append, h.mem, h'.mem, decide_eq_true_eq]
    by_cases hx : x ∈ xs <;> simp [hx]
  · -- What is new comes after all of the first list, in the order of the second one.
    refine List.pairwise_append.mpr ⟨?_, ?_, fun x hx y hy => ?_⟩
    · refine h.order.imp_of_mem fun hx hy hlt => ?_
      rwa [hold hx, hold hy]
    · refine (h'.order.filter _).imp_of_mem fun hx hy hlt => ?_
      rw [List.idxOf_append_of_notMem (hnew hx), List.idxOf_append_of_notMem (hnew hy)]
      exact Nat.add_lt_add_left hlt _
    · rw [hold hx, List.idxOf_append_of_notMem (hnew hy)]
      exact Nat.lt_add_right _ (List.idxOf_lt_length_of_mem ((h.mem x).mp hx))

theorem concat (h : FirstOccurrences xs l) (x : α) :
    FirstOccurrences (xs ++ [x]) (if x ∈ l then l else l ++ [x]) := by
  have hnew : l ++ [x].filter (· ∉ xs) = if x ∈ l then l else l ++ [x] := by
    by_cases hx : x ∈ xs <;> simp [h.mem, hx]
  rw [← hnew]
  exact h.append (singleton x)

/-- A list without repetitions is left as it is. -/
theorem of_nodup (h : xs.Nodup) : FirstOccurrences xs xs := by
  induction xs with
  | nil => exact nil
  | cons x rest ih =>
    obtain ⟨hx, hrest⟩ := List.nodup_cons.mp h
    have hkept : rest.filter (· ∉ [x]) = rest := by
      rw [List.filter_eq_self]
      intro y hy
      simpa using ne_of_mem_of_not_mem hy hx
    have happend := (singleton x).append (ih hrest)
    rwa [hkept] at happend

end FirstOccurrences

end

namespace Primitive

theorem mem_firsts {p : Primitive} {seen ps : List Primitive} :
    p ∈ firsts seen ps ↔ p ∈ ps ∧ p ∉ seen := by
  induction ps generalizing seen with
  | nil => simp [firsts]
  | cons q rest ih =>
    unfold firsts
    by_cases hq : q ∈ seen
    · rw [if_pos hq, ih, List.mem_cons]
      constructor
      · rintro ⟨hrest, hp⟩
        exact ⟨.inr hrest, hp⟩
      · rintro ⟨rfl | hrest, hp⟩
        · exact absurd hq hp
        · exact ⟨hrest, hp⟩
    · rw [if_neg hq, List.mem_cons, ih, List.mem_cons, List.mem_cons]
      by_cases hp : p = q
      · simp [hp, hq]
      · simp [hp]

theorem mem_dedupe {p : Primitive} {ps : List Primitive} : p ∈ dedupe ps ↔ p ∈ ps := by
  simp [dedupe, mem_firsts]

theorem nodup_firsts (seen ps : List Primitive) : (firsts seen ps).Nodup := by
  induction ps generalizing seen with
  | nil => exact List.nodup_nil
  | cons p rest ih =>
    unfold firsts
    split
    · exact ih seen
    · refine List.nodup_cons.mpr ⟨fun hp => ?_, ih (p :: seen)⟩
      exact (mem_firsts.mp hp).2 List.mem_cons_self

/-- What is not yet seen comes in the order of first positions. -/
theorem firsts_pairwise (seen ps : List Primitive) :
    (firsts seen ps).Pairwise fun p q => ps.idxOf p < ps.idxOf q := by
  induction ps generalizing seen with
  | nil => exact .nil
  | cons r rest ih =>
    have hlater {seen : List Primitive} (hr : r ∈ seen) : (firsts seen rest).Pairwise
        fun p q => (r :: rest).idxOf p < (r :: rest).idxOf q := by
      refine (ih seen).imp_of_mem fun {p q} hp hq hlt => ?_
      have hne {p : Primitive} (hp : p ∈ firsts seen rest) : r ≠ p := by
        rintro rfl
        exact (mem_firsts.mp hp).2 hr
      rw [List.idxOf_cons_ne _ (hne hp), List.idxOf_cons_ne _ (hne hq)]
      exact Nat.succ_lt_succ hlt
    unfold firsts
    split
    next hr => exact hlater hr
    next hr =>
      refine .cons (fun q hq => ?_) (hlater List.mem_cons_self)
      have hne : r ≠ q := by
        rintro rfl
        exact (mem_firsts.mp hq).2 List.mem_cons_self
      rw [List.idxOf_cons_self, List.idxOf_cons_ne _ hne]
      exact Nat.succ_pos _

theorem firstOccurrences_dedupe (ps : List Primitive) : FirstOccurrences ps (dedupe ps) :=
  ⟨nodup_firsts [] ps, fun _ => mem_dedupe, firsts_pairwise [] ps⟩

/-- Listing primitive types once is a normal form: it keeps each type where it stands first and
nothing else, a second time changes nothing, and of what is appended it keeps the types that are
new. -/
theorem dedupe_normalForm (ps qs : List Primitive) :
    FirstOccurrences ps (dedupe ps) ∧ dedupe (dedupe ps) = dedupe ps ∧
      dedupe (ps ++ qs) = dedupe ps ++ (dedupe qs).filter (· ∉ ps) := by
  have hps := firstOccurrences_dedupe ps
  have hagain := (firstOccurrences_dedupe (dedupe ps)).unique (.of_nodup hps.nodup)
  have hjoined := hps.append (firstOccurrences_dedupe qs)
  exact ⟨hps, hagain, (firstOccurrences_dedupe (ps ++ qs)).unique hjoined⟩

end Primitive
end ClassGrammar
