import Sigil.Pool.Basic

namespace Sigil

/-- What a tree knows about each of its nodes. -/
structure Note where
  name : Option String
  matcher : Option Matcher
  /-- Unused bits before a literal. -/
  lead : Fin 8
  summary : Summary

namespace Note

def sample (n : Note) : BitRange := n.summary.sample

end Note

def Node.note (n : Node) : Note := ⟨n.description.name, n.matcher, n.lead, n.summary⟩

namespace Tree

def sample (t : Tree Note) : BitRange := t.note.sample

def skips (t : Tree Note) : SkipTable := t.note.summary.skips

end Tree

namespace Pool

def treeWithin? (p : Pool) : (fuel : Nat) → PatternId → Option (Tree Note)
  | 0, _ => none
  | fuel + 1, id => do
    let node ← p.get? id
    return .node node.note (← node.kind.traverse (p.treeWithin? fuel))

/-- The tree of a live pattern. Without cycles no path is longer than the number of nodes. -/
def tree? (p : Pool) (id : PatternId) : Option (Tree Note) := p.treeWithin? p.nodes.size id

end Pool

end Sigil
