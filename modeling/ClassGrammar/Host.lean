import ClassGrammar.Fault
import ClassGrammar.Text.Utf8

/-! The system that a run takes place on. The program reads and writes files by the operations of a
host; an operating system is such a host, whatever it does with a path. -/
namespace ClassGrammar

/-- The operations on files. Each may be refused, and a write that fails has written nothing. -/
structure Host (m : Type → Type) where
  isThere : String → m Bool
  read : String → m (Except IoFault Bytes)
  write : String → Bytes → m (Except IoFault Unit)

/-- The text of the file at the path. -/
def Host.readText {m : Type → Type} [Monad m] (host : Host m) (path : String) :
    m (Except IoFault String) := do
  match ← host.read path with
  | .error f => return .error f
  | .ok bytes => match Text.decodeUtf8 bytes with
    | .error _ => return .error .notText
    | .ok s => return .ok s

/-- What can be stored at a place. -/
inductive Stored where
  | file (bytes : Bytes)
  | directory
  deriving DecidableEq, Repr

/-- An operating system. Its state says what is stored at which place and to which place a path
leads; links, permissions and free space are left to the state. Several paths may lead to one place.
An operation may be refused for any reason, and then the state stays as it is. -/
structure OperatingSystem where
  State : Type
  Place : Type
  stored : State → Place → Option Stored
  leadsTo : State → String → Option Place
  isThere : State → String → Bool
  read : State → String → Except IoFault Bytes
  write : State → String → Bytes → Except IoFault State

namespace OperatingSystem

def host (os : OperatingSystem) : Host (StateM os.State) where
  isThere path := do return os.isThere (← get) path
  read path := do return os.read (← get) path
  write path bytes := do
    match os.write (← get) path bytes with
    | .error f => return .error f
    | .ok st => set st; return .ok ()

variable (os : OperatingSystem)

/-- What an action gives when it is performed in a state, and the state that it leaves. -/
def perform {α : Type} (act : StateM os.State α) (st : os.State) : α × os.State := (act.run st).run

/-- Whether there is a file with these bytes at the path. -/
def Holds (st : os.State) (path : String) (bytes : Bytes) : Prop :=
  ∃ place, os.leadsTo st path = some place ∧ os.stored st place = some (.file bytes)

/-- What has been done when the bytes have been written to a path: the place where the path leads
holds them, and nothing else is changed. Each path leads where it led. -/
structure Wrote (st : os.State) (path : String) (bytes : Bytes) (st' : os.State) : Prop where
  stored : ∃ place, os.leadsTo st path = some place ∧ os.stored st place ≠ some .directory ∧
    os.stored st' place = some (.file bytes) ∧
    ∀ other, other ≠ place → os.stored st' other = os.stored st other
  leadsTo : ∀ other, os.leadsTo st' other = os.leadsTo st other

/-- What is known of the operations that are not refused, as long as there are only files and
directories. -/
structure Lawful : Prop where
  /-- The bytes that are read are those of the file at the path. -/
  read : ∀ {st path bytes}, os.read st path = .ok bytes → os.Holds st path bytes
  /-- A write stores all the bytes in a file at the path, in place of a file that is there. -/
  write : ∀ {st path bytes st'}, os.write st path bytes = .ok st' → os.Wrote st path bytes st'

/-- Whether each file is seen and can be read at any path that leads to it. -/
structure Readable : Prop where
  isThere : ∀ {st path bytes}, os.Holds st path bytes → os.isThere st path = true
  read : ∀ {st path bytes}, os.Holds st path bytes → os.read st path = .ok bytes

end OperatingSystem
end ClassGrammar
