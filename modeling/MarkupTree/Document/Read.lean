-- Reading a document from a text, from bytes or from a file, by a grammar
-- that finds the events of the text.
import MarkupTree.Document.Normalize
import MarkupTree.Event.Assembly
import MarkupTree.Options

namespace MarkupTree

inductive ReadError
  /-- The file cannot be read. -/
  | unreadable
  | notUtf8 (fault : Utf8.Fault)
  deriving DecidableEq, Repr

/-- The words of the error. An unreadable file has those of its system. -/
def ReadError.message? : ReadError → Option Text
  | .unreadable => none
  | .notUtf8 fault => some ("invalid UTF-8 in markdown input: ".toList ++ fault.message)

namespace Document

def parse (grammar : Grammar) (text : Text) (o : Options) : Document :=
  let d := ofEvents (.ofText text) (grammar o.smart text)
  if o.normalize then d.normalize else d

/-- Broken UTF-8 is an error, unless the options ask for replacement. -/
def parseBytes (grammar : Grammar) (bytes : List UInt8) (o : Options) :
    Except ReadError Document :=
  if o.validateUtf8 then .ok (parse grammar (Utf8.decodeLenient bytes) o)
  else
    match Utf8.decode bytes with
    | .ok text => .ok (parse grammar text o)
    | .error fault => .error (.notUtf8 fault)

/-- Reads the bytes of a file, where there is one. -/
def parseFile (grammar : Grammar) (file : Option (List UInt8)) (o : Options) :
    Except ReadError Document :=
  match file with
  | some bytes => parseBytes grammar bytes o
  | none => .error .unreadable

/-- Reads a file with no option on. -/
def fromFile (grammar : Grammar) (file : Option (List UInt8)) : Option Document :=
  (parseFile grammar file {}).toOption

end Document

end MarkupTree
