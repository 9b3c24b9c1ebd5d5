import Dynarec.Cli.Path
import Std.Data.HashSet

/-!
# Stores

A directory tree that is a value: the files of the working directory, with the directories and
files that commands make. The names of what else there is on a disk are not known; of it, a store
has the empty devices and a few directories below the root.
-/

namespace Dynarec.Cli

/-- A directory tree: the places of its files, with their data, and of the directories that have a
name. -/
structure Store where
  files : List (Place × ByteArray)
  dirs : Std.HashSet Place

namespace Store

/-- The directories below the root. -/
def topDirs : List Place := ["dev", "etc", "proc", "tmp", "usr"].map Place.root.child

/-- The devices with nothing to read. -/
def devices : List (Place × ByteArray) :=
  ["null", "stdin"].map fun name => ((Place.root.child "dev").child name, .empty)

/-- The tree with these files in the working directory. -/
def ofFiles (files : List (String × ByteArray)) : Store where
  files := files.map (fun (name, data) => (Place.working.child name, data)) ++ devices
  dirs := .ofList topDirs

/-- What a place in the tree holds. -/
inductive Node where
  | directory
  | file (data : ByteArray)

/-- What is at a place. Above and at the working directory and at the root are directories. -/
def node? (s : Store) (place : Place) : Option Node :=
  if place.names = [] ∨ place ∈ s.dirs then some .directory
  else (s.files.lookup place).map .file

/-- The place that a name leads to from a place, which has to be a directory. -/
def enter (s : Store) (place : Place) (name : String) : Except FileError Place :=
  match s.node? place with
  | none => .error .notFound
  | some (.file _) => .error .notDirectory
  | some .directory =>
    if name = "" ∨ name = "." then .ok place
    else if name = ".." then .ok place.parent
    else if maxNameLength < name.utf8ByteSize then .error .nameTooLong
    else .ok (place.child name)

/-- The place that a path leads to. -/
def follow (s : Store) (path : Path) : Except FileError Place :=
  path.names.foldlM s.enter path.start

/-- The data of a file. -/
def read (s : Store) (path : Path) : Except FileError ByteArray := do
  match s.node? (← s.follow path) with
  | some (.file data) => .ok data
  | some .directory => .error .isDirectory
  | none => .error .notFound

/-- Write a file, in place of the one of its name. -/
def write (s : Store) (path : Path) (data : ByteArray) : Except FileError Store := do
  let place ← s.follow path
  match s.node? place with
  | some .directory => .error .isDirectory
  | _ => .ok { s with files := (place, data) :: s.files.filter (·.1 != place) }

/-- Make a directory where nothing is, and leave one that is there. -/
def ensureDir (s : Store) (place : Place) : Except FileError Store :=
  match s.node? place with
  | some .directory => .ok s
  | some (.file _) => .error .alreadyExists
  | none => .ok { s with dirs := s.dirs.insert place }

/-- Enter each name in turn, and make the directories that are missing. -/
def descend (place : Place) : List String → Store → Except FileError Unit × Store
  | [], s => (.ok (), s)
  | name :: rest, s =>
    match s.enter place name with
    | .error e => (.error e, s)
    | .ok inner =>
      match s.ensureDir inner with
      | .error e => (.error e, s)
      | .ok s => descend inner rest s

/-- Make the directory of a path, and leave one that is there; the one above it has to be there. -/
def createDir (s : Store) (path : Path) : Except FileError Store := do
  s.ensureDir (← s.follow path.trimmed)

/-- Make the directory of a path; if the one above it is missing, make first what is missing on the
way. -/
def createDirs (path : Path) (s : Store) : Except FileError Unit × Store :=
  match s.createDir path with
  | .ok s => (.ok (), s)
  | .error e =>
    if e = .notFound then
      match descend path.start path.namesAbove s with
      | (.ok _, s) =>
        match s.createDir path with
        | .ok s => (.ok (), s)
        | .error e => (.error e, s)
      | failed => failed
    else (.error e, s)

/-- The files in the directory of a path, with their names. -/
def list? (s : Store) (path : Path) : Option (List (String × ByteArray)) := do
  let directory ← (s.follow path).toOption
  match s.node? directory with
  | some .directory =>
    some <| s.files.filterMap fun (place, data) =>
      if place.parent = directory then place.names.getLast?.map fun name => (name, data) else none
  | _ => none

/-- The operations of commands on a store. -/
def operations : Files (StateM Store) where
  read := fun text s => (Path.ofText text >>= s.read, s)
  createDirs := fun text s =>
    match Path.ofText text with
    | .ok path => s.createDirs path
    | .error e => (.error e, s)
  write := fun text data s =>
    match Path.ofText text >>= (s.write · data) with
    | .ok s => (.ok (), s)
    | .error e => (.error e, s)

end Store

end Dynarec.Cli
