namespace Sigil

inductive Domain where
  | any
  | hostName
  | diskLabel
  /-- The whole path of a file. -/
  | filePath
  /-- The last part of the path. -/
  | fileName
  /-- The last part of the path of the directory that holds the file. -/
  | dirName
  | fileContents
  | nameAndContents
  | nameOrContents
  | networkProtocol
deriving DecidableEq

namespace Domain

def all : List Domain :=
  [any, hostName, diskLabel, filePath, fileName, dirName, fileContents, nameAndContents,
    nameOrContents, networkProtocol]

def rank (d : Domain) : Nat := all.idxOf d

instance : Ord Domain := ⟨fun d e => compare d.rank e.rank⟩

def name : Domain → String
  | any => "any"
  | hostName => "host-name"
  | diskLabel => "disk-label"
  | filePath => "file-path"
  | fileName => "file-name"
  | dirName => "dir-name"
  | fileContents => "file-contents"
  | nameAndContents => "name-and-contents"
  | nameOrContents => "name-or-contents"
  | networkProtocol => "network-protocol"

def ofName? (s : String) : Option Domain := all.find? (·.name == s)

def IsName (d : Domain) : Prop := d = filePath ∨ d = fileName ∨ d = dirName

instance (d : Domain) : Decidable d.IsName := inferInstanceAs (Decidable (_ ∨ _))

end Domain

end Sigil
