import Sigil.DataFormat
import Sigil.PatternError

namespace Sigil

/-- Which verdicts decide whether a file is of a type. -/
inductive Policy where
  | name
  | contents
  /-- Both have to be positive. -/
  | both
  /-- One of them has to be positive. -/
  | either
deriving DecidableEq

namespace Policy

def all : List Policy := [name, contents, both, either]

def label : Policy → String
  | name => "name"
  | contents => "contents"
  | both => "name-and-contents"
  | either => "name-or-contents"

def ofLabel? (s : String) : Option Policy := all.find? (·.label == s)

end Policy

/-- What can be done with the files of a type. -/
inductive Operation where
  | view
  | edit
  | execute
  | compile
  | decompress
  | extract
  | convert
  | play
deriving DecidableEq

namespace Operation

def all : List Operation := [view, edit, execute, compile, decompress, extract, convert, play]

def label : Operation → String
  | view => "show"
  | edit => "edit"
  | execute => "execute"
  | compile => "compile"
  | decompress => "decompress"
  | extract => "extract"
  | convert => "convert"
  | play => "play"

def ofLabel? (s : String) : Option Operation := all.find? (·.label == s)

end Operation

structure FileType where
  name : String
  doc : Option String := none
  format : DataFormat := .any
  policy : Policy := .both
  namePattern : Option PatternId := none
  contentPattern : Option PatternId := none
  ops : List Operation := []
deriving DecidableEq

namespace FileType

/-- Completes a file type: one that has only one pattern goes by that pattern alone. -/
def build (t : FileType) : Except PatternError FileType :=
  match t.namePattern, t.contentPattern with
  | none, none => .error (.missingPatterns t.name)
  | some _, none => .ok { t with policy := .name }
  | none, some _ => .ok { t with policy := .contents }
  | some _, some _ => .ok t

def patterns (t : FileType) : List PatternId := t.namePattern.toList ++ t.contentPattern.toList

def belongsTo (t : FileType) (format : DataFormat) : Bool := format.contains t.format

end FileType

end Sigil
