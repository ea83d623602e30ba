import Sigil.MatchMode

namespace Sigil

/-- How the contents of files are obtained. -/
structure ContentConfig where
  /-- Map the part of the file that is matched into memory instead of reading it. -/
  useMmap : Bool := true
  /-- Read what cannot be mapped instead of failing. -/
  readFallback : Bool := true
  /-- How the content patterns of file types are matched. -/
  mode : MatchMode := .search
deriving DecidableEq

/-- How patterns check themselves on random instances. -/
structure SelfCheckConfig where
  /-- Number of instances for each pattern. -/
  instances : Nat := 16
  /-- How many bits an unbounded repetition may grow. -/
  growthBits : Nat := 64
  /-- Seed of the random numbers. -/
  seed : Nat := 0
deriving DecidableEq

structure Config where
  content : ContentConfig := {}
  selfCheck : SelfCheckConfig := {}
deriving DecidableEq

end Sigil
