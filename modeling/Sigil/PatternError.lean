import Sigil.Kind

namespace Sigil

/-- Names a pattern of a pool. Identifiers count up from zero and are never reused; fewer than
`2 ^ 32` of them are taken to be given out. -/
structure PatternId where
  index : Nat
deriving DecidableEq, Repr

def PatternId.text (id : PatternId) : String := s!"#{id.index}"

/-- Why an operation on patterns fails. -/
inductive PatternError where
  | emptyLiteral
  /-- Flags on a literal that is not made of whole bytes. -/
  | unalignedFlags
  | emptyAny
  | invalidRange (lo hi : UInt8)
  | invalidRepetition (min max : Nat)
  /-- A file type that describes neither the name nor the contents. -/
  | missingPatterns (name : String)
  | unknownPattern (id : PatternId)
  /-- A release without a retain before it. -/
  | notRetained (id : PatternId)
  /-- The new sub-pattern holds the pattern that would hold it. -/
  | cycle (multi sub : PatternId)
  | notMulti (id : PatternId)
deriving DecidableEq

def PatternError.message : PatternError → String
  | emptyLiteral => "empty literal"
  | unalignedFlags => "literal flags require a literal made of whole bytes"
  | emptyAny => "`any` pattern with zero bits"
  | invalidRange lo hi => s!"invalid byte range {Kind.hexByte lo}-{Kind.hexByte hi}"
  | invalidRepetition min max => s!"invalid repetition \x7b{min},{max}\x7d"
  | missingPatterns name => s!"file type `{name}` has neither name nor content pattern"
  | unknownPattern id => s!"unknown pattern {id.text}"
  | notRetained id => s!"pattern {id.text} released without being retained"
  | cycle multi sub => s!"adding {sub.text} to {multi.text} creates a cycle"
  | notMulti id => s!"pattern {id.text} is not an alternation or a sequence"

end Sigil
