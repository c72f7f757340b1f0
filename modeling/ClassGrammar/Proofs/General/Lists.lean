import Mathlib.Data.List.Basic
import Mathlib.Data.List.Forall2
import Mathlib.Data.List.Nodup
import Mathlib.Logic.Function.Conjugate

/-! Facts on lists that grow at their ends, change at one position, or are related position by
position. -/
namespace ClassGrammar

theorem getElem?_append_of_eq_some {α : Type} {l more : List α} {a : α} {k : Nat}
    (h : l[k]? = some a) : (l ++ more)[k]? = some a := by
  rw [List.getElem?_append_left (List.getElem?_eq_some_iff.mp h).1]
  exact h

theorem getElem?_concat_eq_some {α : Type} {l : List α} {a b : α} {k : Nat} :
    (l ++ [a])[k]? = some b ↔ l[k]? = some b ∨ k = l.length ∧ a = b := by
  by_cases hk : k < l.length
  · rw [List.getElem?_append_left hk]
    have hne : k ≠ l.length := Nat.ne_of_lt hk
    simp [hne]
  · have hnone : l[k]? = none := List.getElem?_eq_none (Nat.le_of_not_lt hk)
    by_cases he : k = l.length
    · subst he
      rw [List.getElem?_concat_length, hnone]
      simp
    · have hout : (l ++ [a])[k]? = none := List.getElem?_eq_none (by simp; omega)
      rw [hout, hnone]
      simp [he]

theorem map_modify {α β : Type} {f : α → β} {change : α → α} {change' : β → β}
    (h : Function.Semiconj f change change') (l : List α) (k : Nat) :
    (l.modify k change).map f = (l.map f).modify k change' := by
  induction l generalizing k with
  | nil => simp
  | cons a rest ih =>
    cases k with
    | zero => simp [h a]
    | succ k => simp [ih]

theorem modify_length_append {α : Type} (l : List α) (a : α) (f : α → α) :
    (l ++ [a]).modify l.length f = l ++ [f a] := by
  induction l with
  | nil => rfl
  | cons b l ih => simpa using ih

/-- In a list without repetition a position is a member. -/
theorem modify_map_of_nodup {α β : Type} [DecidableEq α] {ds : List α} (hd : ds.Nodup)
    {k : Nat} {a : α} (hk : ds[k]? = some a) (f : α → β) (g : β → β) :
    (ds.map f).modify k g = ds.map fun d => if d = a then g (f d) else f d := by
  apply List.ext_getElem?
  intro j
  rw [List.getElem?_modify, List.getElem?_map, List.getElem?_map]
  cases hj : ds[j]? with
  | none => rfl
  | some d =>
    have hiff : k = j ↔ d = a := by
      constructor
      · rintro rfl
        exact Option.some.inj (hj.symm.trans hk)
      · rintro rfl
        exact (List.getElem?_inj (List.getElem?_eq_some_iff.mp hk).1 hd).mp (hk.trans hj.symm)
    by_cases hd : d = a
    · simp [hd, hiff.mpr hd]
    · simp [hd, mt hiff.mp hd]

theorem exists_of_forall₂ {α β : Type} {R : α → β → Prop} {l : List α} {l' : List β}
    (h : List.Forall₂ R l l') {a : α} (ha : a ∈ l) : ∃ b ∈ l', R a b := by
  induction h with
  | nil => cases ha
  | @cons a' b' _ _ hr _ ih =>
    rcases List.mem_cons.mp ha with rfl | ha
    · exact ⟨b', List.mem_cons_self, hr⟩
    · obtain ⟨b, hb, hrel⟩ := ih ha
      exact ⟨b, List.mem_cons_of_mem _ hb, hrel⟩

theorem forall₂_imp_of_mem {α β : Type} {R S : α → β → Prop} {l : List α} {l' : List β}
    (h : List.Forall₂ R l l') (himp : ∀ a ∈ l, ∀ b, R a b → S a b) : List.Forall₂ S l l' := by
  have hboth := (List.forall₂_and_left l l').mpr ⟨fun a ha => ha, h⟩
  exact hboth.imp fun a b hab => himp a hab.1 b hab.2

theorem exists_forall₂ {α β : Type} {R : α → β → Prop} {l : List α}
    (h : ∀ a ∈ l, ∃ b, R a b) : ∃ l', List.Forall₂ R l l' := by
  induction l with
  | nil => exact ⟨[], .nil⟩
  | cons a rest ih =>
    obtain ⟨b, hb⟩ := h a List.mem_cons_self
    obtain ⟨l', hl⟩ := ih fun a' ha' => h a' (List.mem_cons_of_mem a ha')
    exact ⟨b :: l', .cons hb hl⟩

theorem map_eq_iff_forall₂ {α β γ : Type} {f : α → γ} {g : β → γ} {l : List α} {l' : List β} :
    l.map f = l'.map g ↔ List.Forall₂ (fun a b => f a = g b) l l' := by
  rw [← List.forall₂_eq_eq_eq, List.forall₂_map_left_iff, List.forall₂_map_right_iff]

theorem filterMap_eq_of_forall₂ {α β γ : Type} {f : α → Option γ} {g : β → Option γ} {l : List α}
    {l' : List β} (h : List.Forall₂ (fun a b => f a = g b) l l') :
    l.filterMap f = l'.filterMap g := by
  induction h with
  | nil => rfl
  | cons hab _ ih => rw [List.filterMap_cons, List.filterMap_cons, hab, ih]

theorem forall_iff_of_forall₂ {α β : Type} {P : α → Prop} {Q : β → Prop} {l : List α}
    {l' : List β} (h : List.Forall₂ (fun a b => P a ↔ Q b) l l') :
    (∀ a ∈ l, P a) ↔ ∀ b ∈ l', Q b := by
  induction h with
  | nil => simp
  | cons hab _ ih => rw [List.forall_mem_cons, List.forall_mem_cons, hab, ih]

end ClassGrammar
