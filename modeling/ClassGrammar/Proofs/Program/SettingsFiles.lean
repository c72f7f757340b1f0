import ClassGrammar.Proofs.General.Outcome
import ClassGrammar.Settings.Load

/-! Actions on files, performed on an operating system, and the settings that a file holds. Loading
settings reads one file and changes none. -/
namespace ClassGrammar

variable {os : OperatingSystem} {st : os.State}

namespace OperatingSystem

variable {α β : Type}

@[simp] theorem perform_pure (a : α) : os.perform (pure a) st = (a, st) := rfl

@[simp] theorem perform_bind (act : StateM os.State α) (next : α → StateM os.State β) :
    os.perform (act >>= next) st =
      os.perform (next (os.perform act st).1) (os.perform act st).2 := rfl

@[simp] theorem perform_isThere (path : String) :
    os.perform (os.host.isThere path) st = (os.isThere st path, st) := rfl

@[simp] theorem perform_read (path : String) :
    os.perform (os.host.read path) st = (os.read st path, st) := rfl

theorem perform_write (path : String) (bytes : Bytes) :
    os.perform (os.host.write path bytes) st = match os.write st path bytes with
      | .error f => (.error f, st)
      | .ok st' => (.ok (), st') := by
  unfold perform host
  cases h : os.write st path bytes <;> simp [h]

/-- Whether the bytes of the file at the path can be read and encode the text. -/
def Shows (os : OperatingSystem) (st : os.State) (path text : String) : Prop :=
  ∃ bytes, os.read st path = .ok bytes ∧ Text.decodeUtf8 bytes = .ok text

theorem readText_cases (os : OperatingSystem) (st : os.State) (path : String) :
    (∃ f, os.perform (os.host.readText path) st = (.error f, st) ∧
      ∀ text, ¬ os.Shows st path text) ∨
    ∃ text, os.perform (os.host.readText path) st = (.ok text, st) ∧
      ∀ text', os.Shows st path text' ↔ text' = text := by
  unfold Host.readText Shows
  cases hread : os.read st path with
  | error f => exact .inl ⟨f, by simp [hread], by simp⟩
  | ok bytes =>
    cases htext : Text.decodeUtf8 bytes with
    | error f => exact .inl ⟨.notText, by simp [hread, htext], by simp [htext]⟩
    | ok text => exact .inr ⟨text, by simp [hread, htext], by simp [htext, eq_comm]⟩

end OperatingSystem

namespace Settings

/-- Whether the text of the file at a path is accepted as settings: the extension of the path names
a format, in letters of any case, and the reader of this format takes the text. -/
inductive Readers.Accepts (readers : Readers) (path text : String) (s : Settings) : Prop
  | yaml (format : String) (extension : (Path.extension? path).map Text.lowerAscii = some format)
      (named : format = "yaml" ∨ format = "yml") (taken : readers.yaml text = .ok s)
  | json (extension : (Path.extension? path).map Text.lowerAscii = some "json")
      (taken : readers.json text = .ok s)

theorem Readers.ofText_eq_ok {readers : Readers} {path text : String} {s : Settings} :
    readers.ofText path text = .ok s ↔ readers.Accepts path text s := by
  have hyaml : readers.ofYaml text = .ok s ↔ readers.yaml text = .ok s := outcome_mapError
  have hjson : readers.ofJson text = .ok s ↔ readers.json text = .ok s := outcome_mapError
  constructor
  · intro h
    unfold ofText at h
    split at h
    case h_1 hext => exact .yaml _ hext (.inl rfl) (hyaml.mp h)
    case h_2 hext => exact .yaml _ hext (.inr rfl) (hyaml.mp h)
    case h_3 hext => exact .json hext (hjson.mp h)
    case h_4 => cases h
  · rintro (⟨format, hext, rfl | rfl, htaken⟩ | ⟨hext, htaken⟩)
    · simpa only [ofText, hext] using hyaml.mpr htaken
    · simpa only [ofText, hext] using hyaml.mpr htaken
    · simpa only [ofText, hext] using hjson.mpr htaken

/-- Whether these are the settings in the file at a path. -/
def FoundAt (os : OperatingSystem) (readers : Readers) (st : os.State) (path : String)
    (s : Settings) : Prop :=
  ∃ text, os.Shows st path text ∧ readers.Accepts path text s

theorem load_eq_ok {readers : Readers} {path : String} {s : Settings} :
    os.perform (load os.host readers path) st = (.ok s, st) ↔ FoundAt os readers st path s := by
  unfold load FoundAt
  obtain ⟨f, hread, hno⟩ | ⟨text, hread, hshows⟩ := OperatingSystem.readText_cases os st path
  · simp [hread, hno]
  · simp [hread, hshows, Readers.ofText_eq_ok]

theorem load_unchanged (os : OperatingSystem) (readers : Readers) (st : os.State) (path : String) :
    (os.perform (load os.host readers path) st).2 = st := by
  unfold load
  obtain ⟨f, hread, -⟩ | ⟨text, hread, -⟩ := OperatingSystem.readText_cases os st path
  · simp [hread]
  · simp [hread]

end Settings

end ClassGrammar
