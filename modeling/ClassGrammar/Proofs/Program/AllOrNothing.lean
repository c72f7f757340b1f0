import ClassGrammar.CommandLine
import ClassGrammar.Proofs.Program.FilesInMemory
import ClassGrammar.Proofs.Program.SettingsFiles
import ClassGrammar.Settings.Readers

/-! What a run does to the files. A run that fails leaves them all as they are, and a run that
succeeds changes the one its output path leads to. The paths may lead to the same file. -/
namespace ClassGrammar

/-- The bytes of a text are its encoding in UTF-8. -/
theorem Text.encodeUtf8_eq (s : String) : encodeUtf8 s = s.toUTF8.data.toList := by
  rw [String.toUTF8_eq_toByteArray, ← String.utf8Encode_toList, List.utf8Encode,
    List.toList_data_toByteArray, encodeUtf8]

variable {os : OperatingSystem} {st st' : os.State}

section Generate

variable {s : Settings} {input output : String} {g : Grammar}

/-- Whether a grammar is what the bytes of the file at a path become. -/
def GrammarAt (os : OperatingSystem) (s : Settings) (st : os.State) (input : String)
    (g : Grammar) : Prop :=
  ∃ bytes, os.read st input = .ok bytes ∧ transformDocument s bytes = .ok g

/-- What has been done when a grammar has been generated: it is the grammar of the bytes that the
input had before, and its text has been written to the output. -/
structure Generated (os : OperatingSystem) (s : Settings) (st : os.State) (input output : String)
    (g : Grammar) (st' : os.State) : Prop where
  source : ∃ bytes, os.Holds st input bytes ∧ transformDocument s bytes = .ok g
  wrote : os.Wrote st output g.render.toUTF8.data.toList st'

/-- The write comes last, so each failure leaves the files alone. -/
theorem generate_cases (os : OperatingSystem) (s : Settings) (st : os.State)
    (input output : String) :
    (∃ f, os.perform (generate os.host s input output) st = (.error f, st) ∧
      ∀ g st', GrammarAt os s st input g →
        os.write st output (Text.encodeUtf8 g.render) ≠ .ok st') ∨
    ∃ g st', os.perform (generate os.host s input output) st = (.ok g, st') ∧
      GrammarAt os s st input g ∧ os.write st output (Text.encodeUtf8 g.render) = .ok st' := by
  unfold generate GrammarAt
  cases hread : os.read st input with
  | error f => exact .inl ⟨.io f, by simp [hread], by simp⟩
  | ok bytes =>
    cases hg : transformDocument s bytes with
    | error f => exact .inl ⟨f, by simp [hread, hg], by simp [hg]⟩
    | ok g =>
      cases hwrite : os.write st output (Text.encodeUtf8 g.render) with
      | error f =>
        refine .inl ⟨.io f, by simp [hread, hg, OperatingSystem.perform_write, hwrite], ?_⟩
        rintro g' st' ⟨bytes', hbytes, hg'⟩
        obtain rfl := Except.ok.inj hbytes
        obtain rfl := Except.ok.inj (hg.symm.trans hg')
        simp [hwrite]
      | ok st' =>
        exact .inr ⟨g, st', by simp [hread, hg, OperatingSystem.perform_write, hwrite],
          ⟨bytes, rfl, hg⟩, hwrite⟩

theorem generate_error {f : Fault}
    (h : os.perform (generate os.host s input output) st = (.error f, st')) : st' = st := by
  obtain ⟨f', he, -⟩ | ⟨g, st₁, he, -, -⟩ := generate_cases os s st input output
  · cases h.symm.trans he
    rfl
  · cases h.symm.trans he

theorem generate_ok (hos : os.Lawful)
    (h : os.perform (generate os.host s input output) st = (.ok g, st')) :
    Generated os s st input output g st' := by
  obtain ⟨f, he, -⟩ | ⟨g₁, st₁, he, hg, hwrite⟩ := generate_cases os s st input output
  · cases h.symm.trans he
  · cases h.symm.trans he
    obtain ⟨bytes, hread, hg⟩ := hg
    exact ⟨⟨bytes, hos.read hread, hg⟩, Text.encodeUtf8_eq _ ▸ hos.write hwrite⟩

end Generate

namespace CommandLine

variable {readers : Settings.Readers} {log input output level : String} {config : Option String}
  {s : Settings} {g : Grammar}

/-- Whether these are the settings of a run. -/
def SettingsOf (os : OperatingSystem) (readers : Settings.Readers) (st : os.State) :
    Option String → Settings → Prop
  | none, s => s = {}
  | some path, s => s.FoundAt os readers st path

theorem loadSettings_eq_ok :
    os.perform (loadSettings os.host readers config) st = (.ok s, st) ↔
      SettingsOf os readers st config s := by
  cases config with
  | none => simp [loadSettings, SettingsOf, eq_comm]
  | some path => exact Settings.load_eq_ok

theorem loadSettings_cases (os : OperatingSystem) (readers : Settings.Readers) (st : os.State)
    (config : Option String) :
    ∃ r, os.perform (loadSettings os.host readers config) st = (r, st) := by
  cases config with
  | none => exact ⟨.ok {}, rfl⟩
  | some path => exact ⟨_, Prod.ext rfl (Settings.load_unchanged os readers st path)⟩

/-- Whether all that a run needs is there: the input exists, the settings load, the bytes of the
input can be read and become a grammar, and the text of the grammar can be written to the output. -/
def Ready (os : OperatingSystem) (readers : Settings.Readers) (st : os.State)
    (input output : String) (config : Option String) : Prop :=
  os.isThere st input = true ∧ ∃ s g st', SettingsOf os readers st config s ∧
    GrammarAt os s st input g ∧ os.write st output g.render.toUTF8.data.toList = .ok st'

/-- Where files can be read, a run needs an existing file. -/
theorem ready_iff (hos : os.Lawful) (hread : os.Readable) :
    Ready os readers st input output config ↔ ∃ bytes s g st', os.Holds st input bytes ∧
      SettingsOf os readers st config s ∧ transformDocument s bytes = .ok g ∧
      os.write st output g.render.toUTF8.data.toList = .ok st' := by
  constructor
  · rintro ⟨-, s, g, st', hs, ⟨bytes, hbytes, hg⟩, hwrite⟩
    exact ⟨bytes, s, g, st', hos.read hbytes, hs, hg, hwrite⟩
  · rintro ⟨bytes, s, g, st', hholds, hs, hg, hwrite⟩
    exact ⟨hread.isThere hholds, s, g, st', hs, ⟨bytes, hread.read hholds, hg⟩, hwrite⟩

theorem runGenerate_cases (os : OperatingSystem) (readers : Settings.Readers) (st : os.State)
    (input output : String) (config : Option String) :
    (¬ Ready os readers st input output config ∧ ∃ message,
      os.perform (runGenerate os.host readers input output config) st = (.error message, st)) ∨
    Ready os readers st input output config ∧ ∃ s g st', SettingsOf os readers st config s ∧
      os.perform (generate os.host s input output) st = (.ok g, st') ∧
      os.perform (runGenerate os.host readers input output config) st = (.ok g, st') := by
  unfold runGenerate
  by_cases hthere : os.isThere st input
  · obtain ⟨r, hload⟩ := loadSettings_cases os readers st config
    cases r with
    | error f =>
      refine .inl ⟨?_, f.message, by simp [hthere, hload]⟩
      rintro ⟨-, s, -, -, hs, -⟩
      cases hload.symm.trans (loadSettings_eq_ok.mpr hs)
    | ok s =>
      have hs := loadSettings_eq_ok.mp hload
      obtain ⟨f, hgen, hno⟩ | ⟨g, st', hgen, hg, hwrite⟩ := generate_cases os s st input output
      · refine .inl ⟨?_, s!"Error while generating the grammar: {f.message}",
          by simp [hthere, hload, hgen]⟩
        rintro ⟨-, s', g, st', hs', hg, hwrite⟩
        cases hload.symm.trans (loadSettings_eq_ok.mpr hs')
        exact hno g st' hg (Text.encodeUtf8_eq _ ▸ hwrite)
      · exact .inr ⟨⟨hthere, s, g, st', hs, hg, Text.encodeUtf8_eq _ ▸ hwrite⟩, s, g, st', hs, hgen,
          by simp [hthere, hload, hgen]⟩
  · exact .inl ⟨fun hready => hthere hready.1, s!"Input file {input} does not exist.",
      by simp [hthere]⟩

theorem exists_runGenerate_iff :
    (∃ g st', os.perform (runGenerate os.host readers input output config) st = (.ok g, st')) ↔
      Ready os readers st input output config := by
  obtain ⟨hno, message, he⟩ | ⟨hready, s, g, st', -, -, he⟩ :=
    runGenerate_cases os readers st input output config
  · exact iff_of_false (fun ⟨g, st', hok⟩ => by cases hok.symm.trans he) hno
  · exact iff_of_true ⟨g, st', he⟩ hready

/-- A run that generates a grammar says so, and has written the text of that grammar to its output
and nothing else. A run that does not has changed no file. The paths may lead to the same file: the
grammar is that of the old bytes. All this holds whatever the system refuses, whichever texts the
readers take for settings, and whatever the logger adds to the error stream. Where each file can be
read, the input only has to be a file. -/
theorem run_allOrNothing (hos : os.Lawful) (readers : Settings.Readers) (st : os.State)
    (log input output : String) (config : Option String) (level : String) :
    (∀ s f st', os.perform (generate os.host s input output) st = (.error f, st') → st' = st) ∧
    (∀ s g st', os.perform (generate os.host s input output) st = (.ok g, st') →
      Generated os s st input output g st') ∧
    (∀ path s, os.perform (Settings.load os.host readers path) st = (.ok s, st) ↔
      s.FoundAt os readers st path) ∧
    ((∃ g st', os.perform (runGenerate os.host readers input output config) st = (.ok g, st')) ↔
      Ready os readers st input output config) ∧
    (os.Readable → (Ready os readers st input output config ↔
      ∃ bytes s g st', os.Holds st input bytes ∧ SettingsOf os readers st config s ∧
        transformDocument s bytes = .ok g ∧
        os.write st output g.render.toUTF8.data.toList = .ok st')) ∧
    (Ready os readers st input output config → ∃ s g st', SettingsOf os readers st config s ∧
      Generated os s st input output g st' ∧
      os.perform (execute os.host readers log input output config level) st = ({
        code := 0
        stdout := "Grammar successfully generated in \"" ++ output ++ "\".\n"
        stderr := levelRemark level ++ log }, st')) ∧
    (¬ Ready os readers st input output config → ∃ message,
      os.perform (execute os.host readers log input output config level) st = ({
        code := 1
        stdout := ""
        stderr := levelRemark level ++ log ++ message ++ "\n" }, st)) := by
  refine ⟨fun s f st' => generate_error, fun s g st' => generate_ok hos,
    fun path s => Settings.load_eq_ok, exists_runGenerate_iff, ready_iff hos, fun hready => ?_,
    fun hready => ?_⟩
  · obtain ⟨hno, -⟩ | ⟨-, s, g, st', hs, hgen, hrun⟩ :=
      runGenerate_cases os readers st input output config
    · exact absurd hready hno
    · exact ⟨s, g, st', hs, generate_ok hos hgen, by simp [execute, hrun]⟩
  · obtain ⟨-, message, hrun⟩ | ⟨hyes, -⟩ := runGenerate_cases os readers st input output config
    · exact ⟨message, by simp [execute, hrun]⟩
    · exact absurd hyes hready

theorem run_of_parse {m : Type → Type} [Monad m] {host : Host m} {args : List String}
    (h : parse args = .generate input output config level) :
    run host readers log args = execute host readers log input output config level := by
  rw [run, h]

/-- A model of one class. -/
def stateModel : Bytes := Text.encodeUtf8
  "<uml:Model><packagedElement xmi:type=\"uml:Class\" xmi:id=\"c\" name=\"S\"/></uml:Model>"

def stateSettings : String := "grammar_name: Fsm\n"

def stateFiles : FileSystem where
  workingDirectory := ["work"]
  entries := [(["work", "m"], .file stateModel),
    (["work", "fsm.YML"], .file (Text.encodeUtf8 stateSettings))]

theorem stateFiles_settings : SettingsOf FileSystem.system .plain stateFiles (some "fsm.YML")
    { grammarName := "Fsm" } := by
  have hread : stateFiles.read "fsm.YML" = .ok (Text.encodeUtf8 stateSettings) := by decide +kernel
  have htext : Text.decodeUtf8 (Text.encodeUtf8 stateSettings) = .ok stateSettings := by
    decide +kernel
  have htaken : (Settings.Readers.plain.yaml stateSettings).toOption =
      some { grammarName := "Fsm" } := by decide +kernel
  exact ⟨_, ⟨_, hread, htext⟩, .yaml "yml" (by decide +kernel) (.inr rfl)
    (FileSystem.toOption_eq_some.mp htaken)⟩

theorem stateFiles_ready :
    Ready FileSystem.system .plain stateFiles "m" "/work/./m" (some "fsm.YML") := by
  refine (ready_iff FileSystem.lawful FileSystem.readable).mpr ?_
  have hread : stateFiles.read "m" = .ok stateModel := by decide +kernel
  have hgrammar : (transformDocument { grammarName := "Fsm" } stateModel).isOk := by decide +kernel
  have htarget : stateFiles.target "/work/./m" = .ok ["work", "m"] := by decide +kernel
  cases hg : transformDocument { grammarName := "Fsm" } stateModel with
  | error f => simp [hg, Except.isOk, Except.toBool] at hgrammar
  | ok g =>
    have hwrite : stateFiles.write "/work/./m" g.render.toUTF8.data.toList =
        .ok (stateFiles.put ["work", "m"] (.file g.render.toUTF8.data.toList)) :=
      congrArg (Except.map _) htarget
    exact ⟨stateModel, _, g, _, FileSystem.holds_iff.mpr hread, stateFiles_settings, hg, hwrite⟩

/-- The settings come from a file, and the output is the input under another name. -/
theorem stateFiles_in_place : ∃ g st',
    transformDocument { grammarName := "Fsm" } stateModel = .ok g ∧
    FileSystem.system.perform (run FileSystem.system.host .plain ""
      ["generate", "-cfsm.YML", "--input", "m", "-o", "/work/./m"]) stateFiles = ({
        code := 0
        stdout := "Grammar successfully generated in \"/work/./m\".\n" }, st') ∧
    FileSystem.system.Holds st' "m" g.render.toUTF8.data.toList := by
  have hparse : parse ["generate", "-cfsm.YML", "--input", "m", "-o", "/work/./m"] =
      .generate "m" "/work/./m" (some "fsm.YML") "warn" := by decide +kernel
  have hm : stateFiles.locate "m" = .ok ["work", "m"] := by decide +kernel
  have houtput : stateFiles.locate "/work/./m" = .ok ["work", "m"] := by decide +kernel
  have hthere : stateFiles.get? ["work", "m"] = some (.file stateModel) := by decide +kernel
  obtain ⟨-, -, -, -, -, hok, -⟩ := run_allOrNothing FileSystem.lawful .plain stateFiles "" "m"
    "/work/./m" (some "fsm.YML") "warn"
  obtain ⟨s, g, st', hs, ⟨⟨bytes, ⟨place, hplace, hbytes⟩, hg⟩, hwrote⟩, hrun⟩ :=
    hok stateFiles_ready
  cases (loadSettings_eq_ok.mpr stateFiles_settings).symm.trans (loadSettings_eq_ok.mpr hs)
  obtain ⟨l, hl, -, hstored, -⟩ := hwrote.stored
  obtain rfl : ["work", "m"] = place :=
    Except.ok.inj (hm.symm.trans (FileSystem.toOption_eq_some.mp hplace))
  obtain rfl : ["work", "m"] = l :=
    Except.ok.inj (houtput.symm.trans (FileSystem.toOption_eq_some.mp hl))
  obtain rfl : stateModel = bytes :=
    Stored.file.inj (Option.some.inj (hthere.symm.trans hbytes))
  rw [run_of_parse hparse]
  exact ⟨g, st', hg, hrun, ["work", "m"], (hwrote.leadsTo "m").trans hplace, hstored⟩

end CommandLine
end ClassGrammar
