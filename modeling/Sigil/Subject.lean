import Sigil.Content
import Sigil.Path

namespace Sigil

inductive Contents where
  | unknown
  /-- Contents in memory. -/
  | bytes (data : Buffer)
  /-- An open file, with its size in bytes where it is known. -/
  | file (file : File) (size : Option Nat)

/-- A file that is to be recognized. -/
structure Subject where
  path : Option Path := none
  contents : Contents := .unknown

namespace Subject

/-- The part of the path that a domain describes; the last component if it describes no other. -/
def nameIn (s : Subject) (domain : Domain) : Option (List UInt8) := do
  let path ← s.path
  match domain with
  | .filePath => path
  | .dirName => path.directoryName?
  | _ => path.fileName?

end Subject

end Sigil
