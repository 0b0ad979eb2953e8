-- The files and folders that settings are looked for in. A path is followed
-- name by name, and every name on the way has to start from a folder.
import MarkupTree.Settings.Value

namespace MarkupTree

namespace Settings

/-! ## Paths -/

/-- The names between the slashes as they were given. An empty name and a
single dot stay where they are, two dots lead to the folder above. -/
abbrev Path := List Text

namespace Path

/-- A name that leads nowhere. -/
def stays (name : Text) : Bool := name == [] || name == ['.']

def leadsUp (name : Text) : Bool := name == ['.', '.']

/-- The path without the names at its ends that lead nowhere. -/
def trim (path : Path) : Path := ((path.dropWhile stays).reverse.dropWhile stays).reverse

/-- How a path is shown. -/
def text (path : Path) : Text := ['/'].intercalate path.trim

end Path

/-! ## Places -/

/-- Where a path leads to. -/
inductive Place
  /-- In the top folder, by the names from the innermost one outward. -/
  | inside (names : List Text)
  /-- A folder that holds the top folder. -/
  | above
  /-- Anything else in a folder above the top, of which nothing is known. -/
  | elsewhere
  deriving DecidableEq, Repr

namespace Place

def top : Place := .inside []

def step (p : Place) (name : Text) : Place :=
  if Path.stays name then p
  else
    match p with
    | inside names =>
      if Path.leadsUp name then
        match names with
        | [] => above
        | _ :: outer => inside outer
      else inside (name :: names)
    | above => if Path.leadsUp name then above else elsewhere
    | elsewhere => elsewhere

/-- The place that a path leads to if it can be followed. -/
def follow (p : Place) (path : Path) : Place := path.foldl step p

end Place

/-! ## What stands there -/

inductive Entry
  | folder
  /-- A file with its bytes, and its value if its notation is valid. -/
  | file (bytes : List UInt8) (value : Option Value)

def Entry.isFolder : Entry → Bool
  | folder => true
  | file _ _ => false

structure Disk where
  entries : List (Place × Entry) := []

namespace Disk

/-- What stands at a place. The top folder and the folders above it are
always there. -/
def entryAt? (d : Disk) (p : Place) : Option Entry :=
  match d.entries.find? fun e => e.1 == p with
  | some e => some e.2
  | none => if p = .top ∨ p = .above then some .folder else none

def isFolder (d : Disk) (p : Place) : Bool := (d.entryAt? p).any Entry.isFolder

/-- The place that a path leads to. A name can be followed only from a folder
that is there, also if the next name leads up again. -/
def resolve? (d : Disk) (p : Place) : Path → Option Place
  | [] => some p
  | name :: rest => if d.isFolder p then d.resolve? (p.step name) rest else none

/-- What a path from the top folder leads to. -/
def entry? (d : Disk) (path : Path) : Option Entry := (d.resolve? .top path).bind d.entryAt?

def contains (d : Disk) (path : Path) : Bool := (d.entry? path).isSome

/-! ## Filling a disk -/

/-- Makes a folder at a place where nothing stands. -/
def makeFolder (d : Disk) (p : Place) : Disk :=
  match d.entryAt? p with
  | some _ => d
  | none => ⟨(p, .folder) :: d.entries⟩

/-- Makes every folder on a path, also those that the path leaves again. -/
def makeFolders (d : Disk) (p : Place) : Path → Disk
  | [] => d
  | name :: rest => (d.makeFolder (p.step name)).makeFolders (p.step name) rest

/-- Puts an entry at a path from the top folder, in folders that are made if
they are missing. -/
def put (d : Disk) (path : Path) (e : Entry) : Disk :=
  ⟨(Place.top.follow path, e) :: (d.makeFolders .top path.dropLast).entries⟩

end Disk

end Settings

end MarkupTree
