import ClassGrammar.Grammar.Basic
import ClassGrammar.Model.Basic
import Mathlib.Data.List.Induction
import Mathlib.Data.List.Nodup

/-! The tables of declared names. A table has the last position of each name, which is its only one
as long as no name is entered twice. -/
namespace ClassGrammar

section

variable {names : List String} {name : String} {k : Nat}

/-- The insertion of a declaration into a table: its name gets its position, and the entries that
are there stay below. A run only ever adds declarations at the end and renames none, so the tables
of its grammar are those that are made by inserting each declaration when it is added. -/
theorem nameTable_concat (names : List String) (last : String) :
    nameTable (names ++ [last]) = (last, names.length) :: nameTable names := by
  simp [nameTable, List.zipIdx_append]

theorem lookup_nameTable_concat (names : List String) (last name : String) :
    (nameTable (names ++ [last])).lookup name =
      if name = last then some names.length else (nameTable names).lookup name := by
  rw [nameTable_concat]
  exact Model.lookup_cons last name names.length (nameTable names)

theorem lookup_nameTable_eq_some : (nameTable names).lookup name = some k ↔
    names[k]? = some name ∧ ∀ j, k < j → names[j]? ≠ some name := by
  induction names using List.reverseRecOn with
  | nil => simp [nameTable]
  | append_singleton names last ih =>
    rw [lookup_nameTable_concat]
    by_cases hlast : name = last
    · subst hlast
      rw [if_pos rfl, Option.some.injEq]
      constructor
      · rintro rfl
        refine ⟨List.getElem?_concat_length, fun j hj => ?_⟩
        have hle : (names ++ [name]).length ≤ j := by
          rw [List.length_append, List.length_singleton]
          exact hj
        simp [List.getElem?_eq_none hle]
      · rintro ⟨hk, hafter⟩
        obtain ⟨hlt, -⟩ := List.getElem?_eq_some_iff.mp hk
        rw [List.length_append, List.length_singleton] at hlt
        have hge : ¬ k < names.length := fun hk => hafter _ hk List.getElem?_concat_length
        omega
    · rw [if_neg hlast, ih]
      have hsame (j : Nat) : (names ++ [last])[j]? = some name ↔ names[j]? = some name := by
        by_cases hj : j < names.length
        · rw [List.getElem?_append_left hj]
        · have hle : names.length ≤ j := Nat.le_of_not_lt hj
          rw [List.getElem?_append_right hle, List.getElem?_eq_none hle]
          cases j - names.length <;> simp [Ne.symm hlast]
      simp only [hsame, ne_eq]

theorem lookup_nameTable_isSome : ((nameTable names).lookup name).isSome ↔ name ∈ names := by
  induction names using List.reverseRecOn with
  | nil => simp [nameTable]
  | append_singleton names last ih =>
    rw [lookup_nameTable_concat, List.mem_append, List.mem_singleton, ← ih]
    by_cases hlast : name = last <;> simp [hlast]

theorem lookup_nameTable_of_nodup (hn : names.Nodup) :
    (nameTable names).lookup name = some k ↔ names[k]? = some name := by
  rw [lookup_nameTable_eq_some]
  constructor
  · intro h
    exact h.1
  · intro hk
    refine ⟨hk, fun j hj hname => ?_⟩
    have hjk := (List.getElem?_inj (List.getElem?_eq_some_iff.mp hk).1 hn).mp (hk.trans hname.symm)
    omega

/-- Distinct names that are entered later leave the earlier ones where they are. -/
theorem lookup_nameTable_of_prefix {names' : List String} (hp : names <+: names')
    (hn : names'.Nodup) (h : name ∈ names) :
    (nameTable names').lookup name = (nameTable names).lookup name := by
  obtain ⟨k, hk⟩ := List.getElem?_of_mem h
  have hk' : names'[k]? = some name := by
    obtain ⟨rest, rfl⟩ := hp
    rw [List.getElem?_append_left (List.getElem?_eq_some_iff.mp hk).1, hk]
  rw [(lookup_nameTable_of_nodup hn).mpr hk',
    (lookup_nameTable_of_nodup (hn.sublist hp.sublist)).mpr hk]

end

namespace Grammar

variable {g : Grammar} {name : String} {k : Nat}

theorem findInterface?_isSome :
    (g.findInterface? name).isSome ↔ name ∈ g.interfaces.map (·.name) :=
  lookup_nameTable_isSome

theorem findUnion?_isSome : (g.findUnion? name).isSome ↔ name ∈ g.unions.map (·.name) :=
  lookup_nameTable_isSome

theorem hasType_iff : g.hasType name = true ↔ name ∈ g.declared := by
  rw [hasType, Bool.or_eq_true, findInterface?_isSome, findUnion?_isSome, declared, List.mem_append]

theorem findInterface?_eq_none :
    g.findInterface? name = none ↔ ∀ i ∈ g.interfaces, i.name ≠ name := by
  rw [← Option.not_isSome_iff_eq_none, findInterface?_isSome]
  simp

theorem interface_of_find (h : g.findInterface? name = some k) :
    ∃ i, g.interfaces[k]? = some i ∧ i.name = name := by
  have hk := (lookup_nameTable_eq_some.mp h).1
  rwa [List.getElem?_map, Option.map_eq_some_iff] at hk

theorem union_of_find (h : g.findUnion? name = some k) :
    ∃ u, g.unions[k]? = some u ∧ u.name = name := by
  have hk := (lookup_nameTable_eq_some.mp h).1
  rwa [List.getElem?_map, Option.map_eq_some_iff] at hk

end Grammar
end ClassGrammar
