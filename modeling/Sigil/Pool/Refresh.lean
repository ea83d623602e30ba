import Sigil.Pool.Basic

namespace Sigil

namespace Pool

def revise (p : Pool) (id : PatternId) (node : Node) (summary : Summary) : Pool :=
  let q := p.modify id fun n => { n with summary := summary, canonical := false }
  if node.canonical then q.forget id else q

/-- Updates the summaries at and above `id`, along back edges of at most `fuel` patterns. -/
def refreshUp : (fuel : Nat) → Pool → PatternId → Pool
  | 0, p, _ => p
  | fuel + 1, p, id =>
    match p.get? id with
    | none => p
    | some node =>
      let summary := p.summarize node.kind
      if p.sameSummary summary node.summary then p
      else node.supers.foldl (refreshUp fuel) (p.revise id node summary)

def refresh (p : Pool) (id : PatternId) : Pool := refreshUp p.nodes.size p id

/-- Lets `super` embed `new` in the place of `old`, everywhere in its list. -/
def redirect (old new : PatternId) (p : Pool) (super : PatternId) : Pool :=
  let replaced := p.modify super fun n =>
    { n with kind := n.kind.map fun sub => if sub = old then new else sub }
  ((replaced.unlink old super).link new super).refresh super

def migrateSupers (p : Pool) (old new : PatternId) : Pool :=
  (p.supers old).foldl (redirect old new) p

end Pool

end Sigil
