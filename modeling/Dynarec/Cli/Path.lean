import Dynarec.Cli.Files

/-!
# Paths

A path gives the names on the way from one place in the tree of directories to another. It starts
at the root if it starts with a slash, and at the working directory otherwise. Slashes stand
between the names; an empty name, as between two slashes, and a dot stay where they are, and two
dots go up. Names and paths have a greatest length.
-/

namespace Dynarec.Cli

/-- The length in bytes of the longest name. -/
def maxNameLength : Nat := 255

/-- The length in bytes of the longest path. -/
def maxPathLength : Nat := 4095

/-- A directory that places are counted from: the root, or the one so many levels above the working
directory. -/
inductive Origin where
  | root
  | above (levels : Nat)
  deriving DecidableEq, Hashable, Repr

/-- A place in the tree of directories: the names from a directory down to it. -/
structure Place where
  origin : Origin
  names : List String
  deriving DecidableEq, Hashable, Repr

namespace Place

/-- The root. -/
def root : Place := ⟨.root, []⟩

/-- The working directory. -/
def working : Place := ⟨.above 0, []⟩

/-- The place of a name in a directory. -/
def child (p : Place) (name : String) : Place := { p with names := p.names ++ [name] }

/-- The directory that a place is in; the root is in itself. -/
def parent : Place → Place
  | ⟨.root, []⟩ => root
  | ⟨.above levels, []⟩ => ⟨.above (levels + 1), []⟩
  | ⟨origin, names⟩ => ⟨origin, names.dropLast⟩

end Place

/-- A path: the place that it starts from and the names on the way. -/
structure Path where
  start : Place
  names : List String
  deriving DecidableEq, Repr

namespace Path

/-- The path that a text gives. -/
def ofText (text : String) : Except FileError Path :=
  if maxPathLength < text.utf8ByteSize then .error .nameTooLong
  else
    match text.splitOn "/" with
    | [""] => .error .notFound
    | "" :: names => .ok ⟨.root, names⟩
    | names => .ok ⟨.working, names⟩

/-- A path without the slashes at its end. -/
def trimmed (p : Path) : Path :=
  { p with names := (p.names.reverse.dropWhile (· = "")).reverse }

/-- The names on a path to the directory above the one it leads to. Here the path counts as written
without empty names and dots, so that a dot at the end does not stand for a directory. -/
def namesAbove (p : Path) : List String :=
  (p.names.filter fun name => name != "" && name != ".").dropLast

end Path

end Dynarec.Cli
