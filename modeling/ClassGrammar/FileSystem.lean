import ClassGrammar.Host
import ClassGrammar.Path

/-! An operating system in memory, without links and permissions. A path is followed part by part
from the working directory or from the root, and each part before the last has to be a directory. -/
namespace ClassGrammar

/-- What is stored at each location. A location is a list of names from the root. The working
directory and those above it are there without an entry. -/
structure FileSystem where
  workingDirectory : List String := []
  entries : List (List String × Stored) := []
  deriving DecidableEq, Repr

namespace FileSystem

/-- What is at a location. -/
def get? (fs : FileSystem) (location : List String) : Option Stored :=
  if location.isPrefixOf fs.workingDirectory then some .directory else fs.entries.lookup location

def putEntry (location : List String) (s : Stored) :
    List (List String × Stored) → List (List String × Stored)
  | [] => [(location, s)]
  | e :: rest => if e.1 = location then (location, s) :: rest else e :: putEntry location s rest

/-- Stores something at a location, in place of what was there. -/
def put (fs : FileSystem) (location : List String) (s : Stored) : FileSystem :=
  { fs with entries := putEntry location s fs.entries }

/-- Where one part of a path leads from a directory. The root is above itself. -/
def enter (location : List String) (part : String) : List String :=
  if part = "" ∨ part = "." then location
  else if part = ".." then location.dropLast
  else location ++ [part]

/-- Follows the parts of a path from a location; the last one need not exist. -/
def follow (fs : FileSystem) (location : List String) : List String → Except IoFault (List String)
  | [] => .ok location
  | part :: rest => match fs.get? location with
    | none => .error .notFound
    | some (.file _) => .error .notDirectory
    | some .directory => follow fs (enter location part) rest

/-- Where a path starts: at the root when it starts with a slash. -/
def origin (fs : FileSystem) (path : String) : List String :=
  if path.startsWith "/" then [] else fs.workingDirectory

/-- The location that a path leads to. -/
def locate (fs : FileSystem) (path : String) : Except IoFault (List String) :=
  if path = "" then .error .notFound
  else fs.follow (fs.origin path) (Path.parts path)

/-- Whether there is a file or a directory at the path. -/
def isThere (fs : FileSystem) (path : String) : Bool :=
  match fs.locate path with
  | .ok location => (fs.get? location).isSome
  | .error _ => false

/-- The bytes of the file at the path. -/
def read (fs : FileSystem) (path : String) : Except IoFault Bytes :=
  match fs.locate path with
  | .error f => .error f
  | .ok location => match fs.get? location with
    | none => .error .notFound
    | some .directory => .error .isDirectory
    | some (.file bytes) => .ok bytes

/-- The parts without empty ones at the end. -/
def trimParts (ps : List String) : List String := (ps.reverse.dropWhile (· == "")).reverse

/-- Where a file can be written. A path that ends with a slash names no file. -/
def target (fs : FileSystem) (path : String) : Except IoFault (List String) :=
  if path = "" then .error .notFound
  else
    let ps := Path.parts path
    match fs.follow (fs.origin path) (trimParts ps) with
    | .error f => .error f
    | .ok location =>
        if ps.getLast? = some "" ∨ fs.get? location = some .directory then .error .isDirectory
        else .ok location

/-- Writes a file at the path, in place of a file that is there. -/
def write (fs : FileSystem) (path : String) (bytes : Bytes) : Except IoFault FileSystem :=
  (fs.target path).map fun location => fs.put location (.file bytes)

/-- The file system as an operating system. Its locations are the places. -/
def system : OperatingSystem where
  State := FileSystem
  Place := List String
  stored := get?
  leadsTo fs path := (fs.locate path).toOption
  isThere := isThere
  read := read
  write := write

end FileSystem
end ClassGrammar
