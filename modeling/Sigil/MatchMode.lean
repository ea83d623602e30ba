namespace Sigil

/-- How a pattern is matched against a region. -/
inductive MatchMode where
  /-- The match starts where the region starts. -/
  | anchored
  /-- The first match in the region, trying one offset per byte. -/
  | search
  /-- The match starts and ends where the region does. -/
  | full
deriving DecidableEq, Repr

namespace MatchMode

def all : List MatchMode := [anchored, search, full]

def IsAnchored (mode : MatchMode) : Prop := mode ≠ search

instance (mode : MatchMode) : Decidable mode.IsAnchored := inferInstanceAs (Decidable (_ ≠ _))

def name : MatchMode → String
  | anchored => "anchored"
  | search => "partial"
  | full => "full"

def ofName? (s : String) : Option MatchMode := all.find? (·.name == s)

theorem ofName?_name (mode : MatchMode) : ofName? mode.name = some mode := by
  cases mode <;> decide

end MatchMode

end Sigil
