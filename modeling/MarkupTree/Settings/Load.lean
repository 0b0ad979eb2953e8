-- Loading the settings. Exactly one file decides: the one that is asked for,
-- or else the one in the nearest folder that has one. Where no folder has
-- one, the settings are the usual ones.
import MarkupTree.Settings.Disk
import MarkupTree.Text.Utf8

namespace MarkupTree

structure Settings where
  options : Options := {}
  width : Nat := Output.defaultWidth
  /-- The file that the settings were read from. -/
  path : Option Settings.Path := none
  deriving DecidableEq, Repr

namespace Settings

inductive LoadError
  | notFound (path : Path)
  /-- A folder, or a file that is not UTF-8. -/
  | unreadable
  /-- The notation is not valid, or a known field has the wrong kind of value. -/
  | invalid
  | tooWide
  deriving DecidableEq, Repr

/-- The greatest width that settings may ask for. -/
def greatestWidth : Nat := 1000

/-- The words of the error, where they are those of the settings. -/
def LoadError.message? : LoadError → Option Text
  | .tooWide =>
    some ("Configuration error: render.width cannot exceed ".toList ++ Text.ofNat greatestWidth)
  | _ => none

/-- The name of a settings file. -/
def fileName : Text := "mdtree.toml".toList

/-! ## Reading one file -/

/-- The settings that a value holds. -/
def ofValue? : Value → Option Settings
  | .table fields =>
    match readOptions (field? "options".toList fields),
        readRender (field? "render".toList fields) with
    | some options, some width => some { options, width }
    | _, _ => none
  | _ => none

def ofEntry (path : Path) : Entry → Except LoadError Settings
  | .folder => .error .unreadable
  | .file bytes value =>
    match Utf8.decode bytes, value.bind ofValue? with
    | .error _, _ => .error .unreadable
    | .ok _, none => .error .invalid
    | .ok _, some s =>
      if greatestWidth < s.width then .error .tooWide else .ok { s with path := some path }

/-- Loads the settings from a path. -/
def loadFile (d : Disk) (path : Path) : Except LoadError Settings :=
  match d.entry? path with
  | some e => ofEntry path e
  | none => .error (.notFound path)

/-! ## Finding the file -/

/-- The settings file of a folder in the top folder or of the nearest folder
around it. The folder is given from its innermost name outward. -/
def nearestInside (d : Disk) : List Text → Option Path
  | [] => if d.contains [fileName] then some [fileName] else none
  | name :: outer =>
    let here := (name :: outer).reverse ++ [fileName]
    if d.contains here then some here else nearestInside d outer

/-- The settings file for work at a place. Above the top folder there is none. -/
def nearest (d : Disk) : Place → Option Path
  | .inside names => nearestInside d names
  | .above | .elsewhere => none

/-- Loads the settings from the path that is asked for, or for work at a
place. -/
def load (d : Disk) (place : Place) (asked : Option Path) : Except LoadError Settings :=
  match asked with
  | some path => loadFile d path
  | none =>
    match nearest d place with
    | some path => loadFile d path
    | none => .ok {}

/-- The text of a node as the settings ask for it. -/
def render (s : Settings) (site : Site) (f : Output) : Text := site.render f s.options s.width

end Settings

end MarkupTree
