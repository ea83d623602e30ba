import Sigil.Pool.Basic

namespace Sigil

namespace Pool

def isOrphan (p : Pool) (id : PatternId) : Bool :=
  (p.get? id).any fun n => n.roots == 0 && n.supers.isEmpty

/-- Takes a node out of the pool, and out of the back edges of its sub-patterns. -/
def drop (p : Pool) (id : PatternId) (node : Node) : Pool :=
  let holed : Pool :=
    { p with nodes := p.nodes.setIfInBounds id.index none, live := p.live - 1 }
  let forgotten := if node.canonical then holed.forget id else holed
  node.kind.subs.foldl (fun q sub => q.unlink sub id) forgotten

/-- Destroys `id`, and every pattern under it that becomes an orphan, along paths of at most `fuel`
patterns. -/
def destroyDown : (fuel : Nat) → Pool → PatternId → Pool
  | 0, p, _ => p
  | fuel + 1, p, id =>
    match p.get? id with
    | none => p
    | some node =>
      node.kind.subs.foldl
        (fun q sub => if q.isOrphan sub then destroyDown fuel q sub else q)
        (p.drop id node)

/-- Destroys `id`, and every pattern under it that becomes an orphan. -/
def destroy (p : Pool) (id : PatternId) : Pool := destroyDown p.nodes.size p id

end Pool

namespace Edit

def retain (id : PatternId) : Edit Unit := do
  let _ ← Edit.node id
  modify (·.modify id fun n => { n with roots := n.roots + 1 })

/-- Removes an outside holder, and destroys the pattern if this leaves it an orphan. -/
def release (id : PatternId) : Edit Unit := do
  let node ← Edit.node id
  if node.roots = 0 then throw (.notRetained id)
  modify fun p =>
    let released := p.modify id fun n => { n with roots := n.roots - 1 }
    if released.isOrphan id then released.destroy id else released

/-- Destroys all orphans, and answers how many patterns were destroyed. -/
def sweep : Edit Nat := do
  let before ← get
  let after := (before.ids.filter before.isOrphan).foldl Pool.destroy before
  set after
  return before.live - after.live

end Edit

end Sigil
