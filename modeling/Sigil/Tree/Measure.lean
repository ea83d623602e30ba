import Sigil.Census
import Sigil.Pool.Unfold

namespace Sigil

/-- How alike the instances of a pattern are. -/
inductive Uniformity where
  /-- They differ in length, or there are none. -/
  | none
  /-- They have the same length. -/
  | size
  /-- There is only one. -/
  | contents
deriving DecidableEq

namespace Tree

/-- Number of derivations whose length the bound admits, or `inf` if they are too many. -/
def complexity (t : Tree Note) (bound : BitRange) : Nat :=
  if ¬ bound.Defined ∨ ¬ t.sample.Overlaps bound then 0
  else match t.census (min bound.high t.sample.high) with
    | some c => c.total bound
    | .none => inf

def IsConstant (t : Tree Note) : Prop := t.complexity .full = 1

instance (t : Tree Note) : Decidable t.IsConstant := inferInstanceAs (Decidable (_ = _))

mutual

/-- The bits of a tree that leaves no choice. Alternatives without instances are passed over, and so
is a repetition of a pattern without instances. -/
def fixedBits? : Tree Note → Option Bits
  | .node n (.lit l) =>
    if ((l.flaggedBytes? n.lead).getD []).any fun b => (l.variants b).length != 1 then .none
    else some l.bits
  | .node _ (.any _) => .none
  | .node _ (.range lo hi) => if lo = hi then some (.ofByte lo) else .none
  | .node _ (.anchor _) => some []
  | .node _ (.alt ts) => firstFixed? ts
  | .node _ (.seq ts) => fixedInOrder? ts
  | .node _ (.rep t r) =>
    if r.IsFixed ∧ 0 < r.min then (fixedBits? t).map fun bits => (List.replicate r.min bits).flatten
    else some []
  | .node _ (.ctx _ t) => fixedBits? t

def firstFixed? : List (Tree Note) → Option Bits
  | [] => .none
  | t :: ts => if t.sample.Defined then fixedBits? t else firstFixed? ts

def fixedInOrder? : List (Tree Note) → Option Bits
  | [] => some []
  | t :: ts => do return (← fixedBits? t) ++ (← fixedInOrder? ts)

end

def constant? (t : Tree Note) : Option Bits := if t.IsConstant then t.fixedBits? else .none

def uniformity (t : Tree Note) : Uniformity :=
  if ¬ t.sample.Defined ∨ ¬ t.sample.Degenerate then .none
  else if t.IsConstant then .contents
  else .size

end Tree

namespace Pool

/-- Number of derivations of a pattern within the bound. A pattern that does not exist has none. -/
def complexity (p : Pool) (id : PatternId) (bound : BitRange) : Nat :=
  ((p.tree? id).map (·.complexity bound)).getD 0

def isConstant (p : Pool) (id : PatternId) : Bool := p.complexity id .full == 1

def constant? (p : Pool) (id : PatternId) : Option Bits := p.tree? id >>= Tree.constant?

def uniformity (p : Pool) (id : PatternId) : Uniformity :=
  ((p.tree? id).map (·.uniformity)).getD .none

end Pool

end Sigil
