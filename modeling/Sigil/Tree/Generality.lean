import Sigil.Tree.Match
import Sigil.Tree.Measure

namespace Sigil

namespace Tree

def sameWidth (a b : Tree Note) : Bool :=
  decide (a.sample.Defined ∧ a.sample.Degenerate) && a.sample == b.sample

/-- The lists are related one by one, and all pairs but the last have one width. Matching never
gives back what an element took, so only the last elements may differ in what they take. -/
def inStep (related : Tree Note → Tree Note → Bool) : List (Tree Note) → List (Tree Note) → Bool
  | [], [] => true
  | [a], [b] => related a b
  | a :: as, b :: bs => a.sameWidth b && related a b && inStep related as bs
  | _, _ => false

/-- The rules on the layers of two patterns that are no contexts, when neither side is settled by
its instances. -/
def layerGeneralizes (related : Tree Note → Tree Note → Bool) (a b : Tree Note) : Bool :=
  match a.kind, b.kind with
  | .alt as, _ => as.any fun alternative => related alternative b
  | .any bits, _ => b.sample == .fixed bits
  | .range lo hi, .range lo' hi' => decide (lo ≤ lo' ∧ hi' ≤ hi)
  | .seq as, .seq bs => inStep related as bs
  | .rep s r, .rep t q => r.covers q && s.sameWidth t && related s t
  | .rep s r, _ => decide (r.Allows 1) && related s b
  | _, _ => false

/-- The rules on two patterns that are no contexts. A pattern without instances is generalized by
all others. Anchors look at the bytes around a match, which an instance on its own does not have;
without them a constant is generalized by the patterns that match it. -/
def bareGeneralizes (related : Tree Note → Tree Note → Bool) (a b : Tree Note) : Bool :=
  if ¬ b.sample.Defined then true
  else if ¬ a.sample.Defined ∨ ¬ b.sample.Within a.sample then false
  else match b.kind with
    | .alt bs => bs.all fun alternative => related a alternative
    | _ =>
      match if a.hasAnchors then none else b.constant? with
      | some bits => a.accepts bits.toBytes.toArray bits.length
      | none => layerGeneralizes related a b

/-- Follows at most `fuel` layers of both trees together. Two contexts have to agree on the domain;
a context on one side alone does not count. -/
def generalizesWithin : (fuel : Nat) → Tree Note → Tree Note → Bool
  | 0, _, _ => false
  | fuel + 1, a, b =>
    a.same b ||
      match a.kind, b.kind with
      | .ctx d s, .ctx e t => d == e && generalizesWithin fuel s t
      | .ctx _ s, _ => generalizesWithin fuel s b
      | _, .ctx _ t => generalizesWithin fuel a t
      | _, _ => bareGeneralizes (generalizesWithin fuel) a b

/-- `a` generalizes `b`. Each step leaves a layer of at least one tree. -/
def generalizes (a b : Tree Note) : Bool := generalizesWithin (a.size + b.size) a b

end Tree

namespace Pool

def generalizes (p : Pool) (a b : PatternId) : Bool :=
  a == b ||
    match p.tree? a, p.tree? b with
    | some t, some u => t.generalizes u
    | _, _ => false

def specializes (p : Pool) (a b : PatternId) : Bool := p.generalizes b a

/-- The pattern at `index` is generalized by another one of the list. Of two that generalize each
other only the later one is. -/
def redundant (p : Pool) (ids : List PatternId) (id : PatternId) (index : Nat) : Bool :=
  ids.zipIdx.any fun (other, place) =>
    place != index && p.generalizes other id && (decide (place < index) || !p.generalizes id other)

/-- The patterns that no other one of the list makes redundant, in their order. -/
def pruneSpecializations (p : Pool) (ids : List PatternId) : List PatternId :=
  (ids.zipIdx.filter fun (id, index) => !p.redundant ids id index).map (·.1)

end Pool

end Sigil
