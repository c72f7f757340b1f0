import ClassGrammar.Generate
import ClassGrammar.Settings.Load

/-! The command line: its arguments, and what a run prints. -/
namespace ClassGrammar.CommandLine

/-- The options that take a value. -/
inductive Key where
  | input
  | output
  | config
  | logLevel
  deriving DecidableEq, Repr

/-- The values of the options given so far. -/
structure Given where
  input : Option String := none
  output : Option String := none
  config : Option String := none
  logLevel : Option String := none
  deriving DecidableEq, Repr

/-- A level of the command line: before the command, or among its arguments. -/
inductive Level where
  | outer
  | generate
  deriving DecidableEq, Repr

def shortKey? : Level → Char → Option Key
  | .generate, 'i' => some .input
  | .generate, 'o' => some .output
  | .generate, 'c' => some .config
  | _, _ => none

def longKey? : Level → String → Option Key
  | .generate, "input" => some .input
  | .generate, "output" => some .output
  | .generate, "config" => some .config
  | _, "log-level" => some .logLevel
  | _, _ => none

/-- What one argument says. -/
inductive Argument where
  /-- An option, with the value that is attached to it. -/
  | option (key : Key) (attached : Option String)
  | help
  | version
  /-- The end of the options. -/
  | escape
  | word (s : String)
  | unknown
  deriving DecidableEq, Repr

/-- An argument after two hyphens. -/
def long (level : Level) (cs : List Char) : Argument :=
  let name := String.ofList (cs.takeWhile (· ≠ '='))
  let attached := match cs.dropWhile (· ≠ '=') with
    | [] => none
    | _ :: value => some (String.ofList value)
  match longKey? level name with
  | some key => .option key attached
  | none => match name, attached, level with
    | "help", none, _ => .help
    | "version", none, .outer => .version
    | _, _, _ => .unknown

/-- An argument after one hyphen. A value may follow the letter, with an equals sign between. -/
def short (level : Level) (c : Char) (rest : List Char) : Argument :=
  match shortKey? level c with
  | some key => match rest with
    | [] => .option key none
    | '=' :: value => .option key (some (String.ofList value))
    | value => .option key (some (String.ofList value))
  | none => match c, level with
    | 'h', _ => .help
    | 'V', .outer => .version
    | _, _ => .unknown

def Argument.ofText (level : Level) (s : String) : Argument :=
  match s.toList with
  | ['-', '-'] => .escape
  | '-' :: '-' :: cs => long level cs
  | '-' :: c :: rest => short level c rest
  | _ => .word s

/-- Whether the argument can be the value of the option before it. -/
def isValue (s : String) : Bool := !s.startsWith "-" || s == "-"

/-- Takes the value of an option. An option is given at most once, and a path is not empty. -/
def Given.set? (g : Given) (key : Key) (value : String) : Option Given :=
  match key with
  | .input => if g.input.isNone ∧ value ≠ "" then some { g with input := value } else none
  | .output => if g.output.isNone ∧ value ≠ "" then some { g with output := value } else none
  | .config => if g.config.isNone ∧ value ≠ "" then some { g with config := value } else none
  | .logLevel => if g.logLevel.isNone then some { g with logLevel := value } else none

/-- What the arguments ask for. -/
inductive Request where
  | generate (input output : String) (config : Option String) (logLevel : String)
  | help
  | version
  /-- The arguments make no request. -/
  | misuse
  deriving DecidableEq, Repr

/-- The request of all options. The log level of the command wins over the one before it. -/
def Given.request (g : Given) (outerLevel : Option String) : Request :=
  match g.input, g.output with
  | some input, some output =>
      .generate input output g.config ((g.logLevel.or outerLevel).getD "warn")
  | _, _ => .misuse

/-- Reads the arguments of a level. -/
def arguments (level : Level) (outerLevel : Option String) (g : Given) : List String → Request
  | [] => match level with
    | .outer => .misuse
    | .generate => g.request outerLevel
  | s :: rest => match Argument.ofText level s with
    | .option key (some value) => match g.set? key value with
      | some g => arguments level outerLevel g rest
      | none => .misuse
    | .option key none => match rest with
      | [] => .misuse
      | value :: rest =>
          if isValue value then match g.set? key value with
            | some g => arguments level outerLevel g rest
            | none => .misuse
          else .misuse
    | .help => .help
    | .version => .version
    | .escape => match level, rest with
      | .generate, [] => g.request outerLevel
      | _, _ => .misuse
    | .word name => match level with
      | .outer => if name = "generate" then arguments .generate g.logLevel {} rest
          else if name = "help" ∧ rest ∈ [[], ["generate"], ["help"]] then .help
          else .misuse
      | .generate => .misuse
    | .unknown => .misuse

def parse (args : List String) : Request := arguments .outer none {} args

/-- What a run leaves: its exit code and what it prints. -/
structure Exit where
  code : Nat
  stdout : String := ""
  stderr : String := ""
  deriving DecidableEq, Repr

def versionText : String := "uml2grammar 0.1.0-alpha\n"

def usageText : String :=
  "Usage: uml2grammar [--log-level LEVEL] generate -i INPUT -o OUTPUT [-c CONFIG]\n"

def logLevels : List String := ["off", "error", "warn", "info", "debug", "trace"]

/-- A remark on a log level that there is not. -/
def levelRemark (level : String) : String :=
  if Text.lowerAscii level ∈ logLevels then ""
  else s!"Invalid log level: {level}. Using 'warn' instead.\n"

section Run

variable {m : Type → Type} [Monad m] (host : Host m) (readers : Settings.Readers)

/-- The settings of a run: those of the file at a path, or all defaults without a path. -/
def loadSettings : Option String → m (Except Fault Settings)
  | some path => Settings.load host readers path
  | none => return .ok {}

/-- Runs the command. The text is the fault message when it fails. -/
def runGenerate (input output : String) (config : Option String) : m (Except String Grammar) := do
  if !(← host.isThere input) then
    return .error s!"Input file {input} does not exist."
  match ← loadSettings host readers config with
  | .error f => return .error f.message
  | .ok s => match ← generate host s input output with
    | .error f => return .error s!"Error while generating the grammar: {f.message}"
    | .ok g => return .ok g

/-- Runs the program on a request to generate. The log is what the logger writes on the way. -/
def execute (log input output : String) (config : Option String) (level : String) : m Exit := do
  match ← runGenerate host readers input output config with
  | .ok _ => return {
      code := 0
      stdout := "Grammar successfully generated in \"" ++ output ++ "\".\n"
      stderr := levelRemark level ++ log }
  | .error message => return {
      code := 1
      stderr := levelRemark level ++ log ++ message ++ "\n" }

/-- Runs the program on its arguments. -/
def run (log : String) (args : List String) : m Exit :=
  match parse args with
  | .misuse => return { code := 2, stderr := usageText }
  | .help => return { code := 0, stdout := usageText }
  | .version => return { code := 0, stdout := versionText }
  | .generate input output config level => execute host readers log input output config level

end Run
end ClassGrammar.CommandLine
