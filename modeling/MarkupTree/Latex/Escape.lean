-- How text is written in LaTeX. Characters that are commands there become
-- commands that print them, and typographic quotes and dashes become the
-- ligatures that print them.
import MarkupTree.Layout.Page

namespace MarkupTree

namespace Latex

open Layout

/-- A command that prints something, with the braces that end its name. -/
def command (name : Text) : Text := '\\' :: name ++ ['\x7b', '\x7d']

/-- What text has and addresses keep as it is. -/
def normalOnly : Char → Option Text
  | '~' => some (command "textasciitilde".toList)
  | '\u2018' => some ['\x60']
  | '\u2019' => some ['\x27']
  | '\u201c' => some ['\x60', '\x60']
  | '\u201d' => some ['\x27', '\x27']
  | '\u2014' => some "---".toList
  | '\u2013' => some "--".toList
  | _ => none

/-- A character as its mode writes it. Two hyphens in a row are kept apart, as
they would print a dash. -/
def escapeChar : Escape := fun mode _ c next _ =>
  let normal := mode = .normal
  if ['\x7b', '\x7d', '#', '%', '&'].contains c then ['\\', c]
  else if c = '$' ∨ c = '_' then (if normal then ['\\', c] else [c])
  else if c = '-' ∧ next = some '-' then ['-', '\x7b', '\x7d']
  else if c = '^' then command "^".toList
  else if c = '\\' then
    (if mode = .address then ['/'] else command "textbackslash".toList)
  else if c = '|' then command "textbar".toList
  else if c = '<' then command "textless".toList
  else if c = '>' then command "textgreater".toList
  else if c = '[' ∨ c = ']' then ['\x7b', c, '\x7d']
  else if c = '\x22' then command "textquotedbl".toList
  else if c = '\x27' then command "textquotesingle".toList
  else if c = '\u00a0' then ['~']
  else if c = '\u2026' then command "ldots".toList
  else if normal then (normalOnly c).getD [c]
  else [c]

end Latex

end MarkupTree
