import Sigil.BitRange
import Sigil.Tree

namespace Sigil

namespace Kind

/-- The lengths of the instances, from the lengths of the sub-patterns' instances. A length above
`inf` counts as `inf`. -/
def sample : Kind BitRange → BitRange
  | lit l => .fixed (min l.length inf)
  | any n => .fixed (min n inf)
  | range .. => .fixed 8
  | anchor _ => .fixed 0
  | alt subs => subs.foldl .hull .undefined
  | seq subs => subs.foldl .concat (.fixed 0)
  | rep sub r =>
    if sub.Defined then
      ⟨satMul sub.low r.min,
        match r.max with
        | some m => satMul sub.high m
        | none => if sub.high = 0 then 0 else inf⟩
    else if r.min = 0 then .fixed 0
    else .undefined
  | ctx _ sub => sub

/-- The first bytes of the instances, from those of the sub-patterns' instances. -/
def starts : Kind Starts → Starts
  | lit l => l.starts
  | any _ => .any
  | range lo hi => ⟨.ofRange lo hi, false⟩
  | anchor _ => .onlyEmpty
  | alt subs => subs.foldl .union .never
  | seq subs => subs.foldl .andThen .onlyEmpty
  | rep sub r => { sub with nullable := sub.nullable || r.min == 0 }
  | ctx _ sub => sub

end Kind

/-- What follows from the structure of a pattern. -/
structure Summary where
  /-- Lengths of the instances; undefined if there are none. -/
  sample : BitRange
  starts : Starts
  skips : SkipTable
  shape : Shape
deriving DecidableEq

namespace Summary

def ofKind (k : Kind Summary) : Summary :=
  let starts := (k.map (·.starts)).starts
  { sample := (k.map (·.sample)).sample
    starts := starts
    skips := .ofStarts starts
    shape := .node () (k.map (·.shape)) }

def absent : Summary := ⟨.undefined, .never, .trivial, .node () (.alt [])⟩

end Summary

end Sigil
