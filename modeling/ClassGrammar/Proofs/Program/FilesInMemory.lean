import ClassGrammar.FileSystem
import Mathlib.Data.List.TakeWhile

/-! The file system in memory is an operating system that keeps its promises: what is read at a path
is what is stored where the path leads, and a write changes this place alone. -/
namespace ClassGrammar.FileSystem

variable {fs fs' : FileSystem} {location l : List String} {path : String} {bytes : Bytes}

theorem lookup_entry_cons (s : Stored) (es : List (List String × Stored)) :
    ((location, s) :: es).lookup l = if l = location then some s else es.lookup l := by
  by_cases h : l = location
  · simp [h]
  · simp [List.lookup_cons, beq_false_of_ne h, h]

theorem lookup_putEntry (s : Stored) (es : List (List String × Stored)) :
    (putEntry location s es).lookup l = if l = location then some s else es.lookup l := by
  induction es with
  | nil => exact lookup_entry_cons s []
  | cons e rest ih =>
    obtain ⟨place, old⟩ := e
    by_cases he : place = location
    · subst he
      rw [putEntry, if_pos rfl, lookup_entry_cons, lookup_entry_cons]
      split <;> rfl
    · rw [putEntry, if_neg he, lookup_entry_cons, lookup_entry_cons, ih]
      split
      case isTrue h => rw [if_neg (h ▸ he)]
      case isFalse => rfl

theorem workingDirectory_put (s : Stored) :
    (fs.put location s).workingDirectory = fs.workingDirectory := rfl

/-- Nothing is put above the working directory, where the directories are. -/
theorem get?_put (s : Stored) (h : fs.get? location ≠ some .directory) :
    (fs.put location s).get? l = if l = location then some s else fs.get? l := by
  have hlow : ¬ location.isPrefixOf fs.workingDirectory := fun hall => h (by rw [get?, if_pos hall])
  by_cases hl : l.isPrefixOf fs.workingDirectory
  · have hne : l ≠ location := fun he => hlow (he ▸ hl)
    rw [get?, get?, put, if_pos hl, if_pos hl, if_neg hne]
  · rw [get?, get?, put, if_neg hl, if_neg hl, lookup_putEntry]

theorem follow_cons_eq_ok {part : String} {rest : List String} :
    fs.follow location (part :: rest) = .ok l ↔
      fs.get? location = some .directory ∧ fs.follow (enter location part) rest = .ok l := by
  rw [follow]
  split
  case h_1 h => simp [h]
  case h_2 h => simp [h]
  case h_3 h => simp [h]

theorem follow_append_eq_ok {ps qs : List String} :
    fs.follow location (ps ++ qs) = .ok l ↔
      ∃ m, fs.follow location ps = .ok m ∧ fs.follow m qs = .ok l := by
  induction ps generalizing location with
  | nil => simp [follow]
  | cons part rest ih =>
    rw [List.cons_append, follow_cons_eq_ok, ih]
    constructor
    · rintro ⟨hdir, m, hm, hl⟩
      exact ⟨m, follow_cons_eq_ok.mpr ⟨hdir, hm⟩, hl⟩
    · rintro ⟨m, hm, hl⟩
      obtain ⟨hdir, hm⟩ := follow_cons_eq_ok.mp hm
      exact ⟨hdir, m, hm, hl⟩

/-- Only directories are passed through, so paths lead to the same places in file systems with the
same directories. -/
theorem follow_eq_ok_congr
    (h : ∀ l, fs'.get? l = some .directory ↔ fs.get? l = some .directory) (ps : List String) :
    fs'.follow location ps = .ok l ↔ fs.follow location ps = .ok l := by
  induction ps generalizing location with
  | nil => rfl
  | cons part rest ih => rw [follow_cons_eq_ok, follow_cons_eq_ok, h, ih]

theorem locate_eq_ok_congr (hwork : fs'.workingDirectory = fs.workingDirectory)
    (h : ∀ l, fs'.get? l = some .directory ↔ fs.get? l = some .directory) (path : String) :
    fs'.locate path = .ok l ↔ fs.locate path = .ok l := by
  unfold locate origin
  rw [hwork]
  split
  · simp
  · exact follow_eq_ok_congr h _

theorem read_eq_ok :
    fs.read path = .ok bytes ↔
      ∃ l, fs.locate path = .ok l ∧ fs.get? l = some (.file bytes) := by
  unfold read
  cases fs.locate path with
  | error f => simp
  | ok l =>
    cases h : fs.get? l with
    | none => simp [h]
    | some s => cases s <;> simp [h]

theorem trimParts_of_getLast? {ps : List String} (h : ps.getLast? ≠ some "") :
    trimParts ps = ps := by
  rw [trimParts, List.dropWhile_eq_self_iff.mpr, List.reverse_reverse]
  intro hpos hlast
  have hhead : ps.reverse.head? = some "" := by
    rw [List.head?_eq_getElem?, List.getElem?_eq_getElem hpos]
    simpa using hlast
  exact h (by rwa [List.head?_reverse] at hhead)

/-- A path that ends with a slash leads to a directory or nowhere. -/
theorem directory_of_follow {ps : List String} (hps : ps.getLast? = some "")
    (h : fs.follow location ps = .ok l) : fs.get? l = some .directory := by
  obtain ⟨qs, rfl⟩ := List.getLast?_eq_some_iff.mp hps
  obtain ⟨m, -, hm⟩ := follow_append_eq_ok.mp h
  obtain ⟨hdir, hl⟩ := follow_cons_eq_ok.mp hm
  obtain rfl : m = l := by simpa [follow, enter] using hl
  exact hdir

/-- A file can be written where a path leads, unless there is a directory. -/
theorem target_eq_ok :
    fs.target path = .ok l ↔ fs.locate path = .ok l ∧ fs.get? l ≠ some .directory := by
  unfold target locate
  split
  · simp
  · by_cases hlast : (Path.parts path).getLast? = some ""
    · have hno : ¬ (fs.follow (fs.origin path) (Path.parts path) = .ok l ∧
          fs.get? l ≠ some .directory) := fun h => h.2 (directory_of_follow hlast h.1)
      simp only [hno, iff_false, hlast, true_or, if_true]
      split <;> simp
    · simp only [trimParts_of_getLast? hlast]
      cases h : fs.follow (fs.origin path) (Path.parts path) with
      | error f => simp
      | ok m =>
        by_cases hm : fs.get? m = some .directory
        · simp only [hm, or_true, if_true, reduceCtorEq, false_iff, Except.ok.injEq]
          rintro ⟨rfl, hne⟩
          exact hne hm
        · simp only [hlast, hm, or_self, if_false, Except.ok.injEq]
          exact ⟨fun h => ⟨h, h ▸ hm⟩, fun h => h.1⟩

theorem toOption_eq_some {ε α : Type} {x : Except ε α} {a : α} :
    x.toOption = some a ↔ x = .ok a := by
  cases x <;> simp [Except.toOption]

theorem write_eq_ok (h : fs.write path bytes = .ok fs') :
    ∃ location, fs.target path = .ok location ∧ fs' = fs.put location (.file bytes) := by
  unfold write at h
  cases ht : fs.target path with
  | error f => simp [ht, Except.map] at h
  | ok location => exact ⟨location, rfl, by simpa [ht, Except.map] using h.symm⟩

theorem wrote_of_write (h : fs.write path bytes = .ok fs') : system.Wrote fs path bytes fs' := by
  obtain ⟨location, htarget, rfl⟩ := write_eq_ok h
  obtain ⟨hlocate, hfree⟩ := target_eq_ok.mp htarget
  have hget (l) : (fs.put location (.file bytes)).get? l =
      if l = location then some (.file bytes) else fs.get? l := get?_put _ hfree
  have hdirs (l) : (fs.put location (.file bytes)).get? l = some .directory ↔
      fs.get? l = some .directory := by
    rw [hget]
    split
    case isTrue hl => simpa [hl] using hfree
    case isFalse => rfl
  have hpaths (p l) : (fs.put location (.file bytes)).locate p = .ok l ↔ fs.locate p = .ok l :=
    locate_eq_ok_congr (workingDirectory_put _) hdirs p
  refine ⟨⟨location, toOption_eq_some.mpr hlocate, hfree, ?_, fun l hl => ?_⟩, fun p => ?_⟩
  · exact (hget location).trans (if_pos rfl)
  · exact (hget l).trans (if_neg hl)
  · show ((fs.put location (.file bytes)).locate p).toOption = (fs.locate p).toOption
    refine Option.ext fun l => ?_
    rw [toOption_eq_some, toOption_eq_some, hpaths]

theorem holds_iff : system.Holds fs path bytes ↔ fs.read path = .ok bytes := by
  rw [read_eq_ok]
  exact exists_congr fun l => and_congr_left' toOption_eq_some

theorem isThere_of_read (h : fs.read path = .ok bytes) : fs.isThere path = true := by
  obtain ⟨l, hl, hs⟩ := read_eq_ok.mp h
  simp [isThere, hl, hs]

theorem lawful : system.Lawful where
  read h := holds_iff.mpr h
  write := wrote_of_write

/-- No operation is refused but for what stands at the paths. -/
theorem readable : system.Readable where
  isThere h := isThere_of_read (holds_iff.mp h)
  read h := holds_iff.mp h

end ClassGrammar.FileSystem
