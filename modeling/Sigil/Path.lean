namespace Sigil

abbrev Path := List UInt8

namespace Path

inductive Component where
  /-- The slash that begins an absolute path. -/
  | root
  /-- A single dot at the beginning. -/
  | current
  /-- Two dots. -/
  | parent
  | normal (name : List UInt8)
deriving DecidableEq

def split : Path → List (List UInt8)
  | [] => [[]]
  | b :: rest =>
    match b == 0x2F, split rest with
    | true, pieces => [] :: pieces
    | false, piece :: pieces => (b :: piece) :: pieces
    | false, [] => [[b]]

def inner? (piece : List UInt8) : Option Component :=
  if piece = [] ∨ piece = [0x2E] then none
  else if piece = [0x2E, 0x2E] then some .parent
  else some (.normal piece)

def components (path : Path) : List Component :=
  match split path with
  | [] => []
  | first :: rest =>
    let beginning :=
      if path.head? = some 0x2F then some .root
      else if first = [0x2E] then some .current
      else inner? first
    beginning.toList ++ rest.filterMap inner?

def lastName? (components : List Component) : Option (List UInt8) :=
  match components.getLast? with
  | some (.normal name) => some name
  | _ => none

def fileName? (path : Path) : Option (List UInt8) := lastName? path.components

def directoryName? (path : Path) : Option (List UInt8) := lastName? path.components.dropLast

end Path

end Sigil
