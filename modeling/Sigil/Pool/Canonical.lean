import Sigil.Pool.Lifetime
import Sigil.Pool.Refresh
import Sigil.Pool.Unfold

namespace Sigil

inductive Simplified where
  /-- A canonical pattern that exists. -/
  | existing (id : PatternId)
  /-- A node of this kind over canonical sub-patterns. -/
  | kind (k : Kind PatternId)

namespace Pool

def kind? (p : Pool) (id : PatternId) : Option (Kind PatternId) := (p.get? id).map (·.kind)

/-! ## Interning -/

/-- The representative of a kind over canonical sub-patterns, if there is one. -/
def representative? (p : Pool) (k : Kind PatternId) : Option PatternId :=
  let shape := (p.summarize k).shape
  let found := p.representatives.find? fun entry =>
    p.sameDigest entry.1 shape && p.kind? entry.2 == some k
  found.map (·.2)

def appoint (p : Pool) (id : PatternId) : Pool :=
  let q := p.modify id ({ · with canonical := true })
  { q with representatives := q.representatives ++ [((q.summary id).shape, id)] }

/-- The representative of a kind over canonical sub-patterns. Without one, `origin` takes the place
if it is of that kind already, or else a new node, which takes over what is said about the origin
and its matcher. A new literal comes after `lead` unused bits. -/
def intern (p : Pool) (k : Kind PatternId) (lead : Fin 8) (origin : Option PatternId) :
    PatternId × Pool :=
  let source := origin >>= p.get?
  let matcher := source >>= (·.matcher)
  match p.representative? k with
  | some id => (id, p.modify id fun n => { n with matcher := n.matcher <|> matcher })
  | none =>
    match origin, source.map (·.kind) == some k with
    | some id, true => (id, p.appoint id)
    | _, _ =>
      let (id, grown) := p.add k lead
      let described := grown.modify id fun n =>
        { n with
          description := (source.map (·.description)).getD n.description
          matcher := matcher }
      (id, described.appoint id)

/-! ## The rules -/

/-- Adds the bytes that a pattern matches, if it matches single bytes: a range of bytes or a plain
literal of one byte. -/
def addBytes? (p : Pool) (bytes : ByteSet) (id : PatternId) : Option ByteSet := do
  match ← p.kind? id with
  | .lit l =>
    if l.IsPlain ∧ l.length = 8 then some (bytes.insert ((l.stored (p.lead id)).headD 0)) else none
  | .range lo hi => some (bytes.union (.ofRange lo hi))
  | _ => none

/-- The bytes that the patterns match, if each of them matches single bytes. -/
def singleBytes? (p : Pool) (ids : List PatternId) : Option ByteSet := ids.foldlM p.addBytes? .empty

def ofRun? (bytes : ByteSet) : Option (Kind PatternId) :=
  match bytes.runs with
  | [(lo, hi)] => some (if bytes.IsFull then .any 8 else .range lo hi)
  | _ => none

def alternatives (p : Pool) (id : PatternId) : List PatternId :=
  match p.kind? id with
  | some (.alt inner) => inner
  | _ => [id]

def elements (p : Pool) (id : PatternId) : List PatternId :=
  match p.kind? id with
  | some (.seq inner) => inner
  | _ => [id]

def distinct (ids : List PatternId) : List PatternId :=
  (ids.foldl (fun seen id => if id ∈ seen then seen else id :: seen) []).reverse

/-- Flattens an alternation, drops repeated alternatives, and turns single bytes into a range. -/
def simplifyAlt (p : Pool) (subs : List PatternId) : Simplified :=
  match distinct (subs.flatMap p.alternatives) with
  | [only] => .existing only
  | flat => .kind (((p.singleBytes? flat).bind ofRun?).getD (.alt flat))

/-- Two patterns as one literal, if they are literals that can be joined. -/
def fuse? (p : Pool) (first second : PatternId) : Option Literal := do
  match ← p.kind? first, ← p.kind? second with
  | .lit l, .lit m => if l.Fuses m then some (l.append m) else none
  | _, _ => none

/-- Puts a pattern at the end of a sequence, given in reverse, joined with the last one if
possible. -/
def pushFused (p : Pool) (reversed : List PatternId) (sub : PatternId) : List PatternId × Pool :=
  match reversed with
  | last :: before =>
    match p.fuse? last sub with
    | some l => let (id, q) := p.intern (.lit l) (p.lead last) none; (id :: before, q)
    | none => (sub :: reversed, p)
  | [] => ([sub], p)

def simplifySeq (p : Pool) (subs : List PatternId) : Simplified × Pool :=
  let (reversed, q) := subs.foldl
    (fun (reversed, q) sub =>
      (q.elements sub).foldl (fun (reversed, q) element => q.pushFused reversed element)
        (reversed, q))
    ([], p)
  match reversed.reverse with
  | [only] => (.existing only, q)
  | flat => (.kind (.seq flat), q)

def simplifyRep (p : Pool) (sub : PatternId) (r : Repeat) : Simplified :=
  if r = .exactly 1 then .existing sub
  else if r.max = some 0 then .kind (.seq [])
  else match p.kind? sub, decide r.IsFixed with
    | some (.any bits), true =>
      if bits * r.min ≤ inf then .kind (.any (bits * r.min)) else .kind (.rep sub r)
    | _, _ => .kind (.rep sub r)

def simplify (p : Pool) : Kind PatternId → Simplified × Pool
  | .range lo hi => (.kind (if lo = 0 ∧ hi = 255 then .any 8 else .range lo hi), p)
  | .ctx d sub =>
    (match p.kind? sub with
      | some (.ctx e _) => if e = d then .existing sub else .kind (.ctx d sub)
      | _ => .kind (.ctx d sub), p)
  | .alt subs => (p.simplifyAlt subs, p)
  | .seq subs => p.simplifySeq subs
  | .rep sub r => (p.simplifyRep sub r, p)
  | k => (.kind k, p)

/-- The canonical pattern of a node of the given kind over canonical sub-patterns. -/
def represent (p : Pool) (k : Kind PatternId) (origin : PatternId) : PatternId × Pool :=
  match p.simplify k with
  | (.existing canonical, q) => (canonical, q)
  | (.kind k, q) => q.intern k (q.lead origin) (some origin)

/-! ## Canonicalization -/

/-- A pool, and the canonical patterns of the patterns that were worked on. -/
abbrev Canonicalizing := StateM (Pool × List (PatternId × PatternId))

/-- The canonical pattern of a live pattern. Each pattern is worked on once; paths of at most `fuel`
patterns are followed. -/
def canonicalOf : (fuel : Nat) → PatternId → Canonicalizing PatternId
  | 0, id => return id
  | fuel + 1, id => do
    let (p, known) ← get
    if let some canonical := known.lookup id then return canonical
    match p.get? id with
    | none => return id
    | some node =>
      if node.canonical then
        set (p, (id, id) :: known)
        return id
      let kind ← node.kind.traverse (canonicalOf fuel)
      modifyGet fun (p, known) =>
        let (canonical, q) := p.represent kind id
        (canonical, q, (id, canonical) :: known)

end Pool

namespace Edit

/-- The canonical pattern of `id`, made if there is none. Patterns that exist do not change, but
that the canonical one takes over a matcher it lacks. -/
def canonicalize (id : PatternId) : Edit PatternId := do
  let _ ← Edit.node id
  modifyGet fun p =>
    let (canonical, q, _) := (Pool.canonicalOf p.nodes.size id).run (p, [])
    (canonical, q)

/-- Lets every pattern that embeds `id` embed its canonical pattern instead. If there were any and
nobody holds `id`, it is destroyed. -/
def mutatingCanonicalize (id : PatternId) : Edit PatternId := do
  let canonical ← canonicalize id
  if canonical = id then return id
  let node ← Edit.node id
  modify fun p =>
    let migrated := p.migrateSupers id canonical
    if node.roots = 0 ∧ node.supers ≠ [] then migrated.destroy id else migrated
  return canonical

end Edit

/-- The layers agree, and so do their sub-patterns one by one, as far as `same` tells. -/
def Kind.agrees {α : Type} [DecidableEq α] (same : α → α → Bool) : Kind α → Kind α → Bool
  | .alt ss, .alt ts | .seq ss, .seq ts =>
    ss.length == ts.length && (ss.zip ts).all fun (s, t) => same s t
  | .rep s r, .rep t q => r == q && same s t
  | .ctx d s, .ctx e t => d == e && same s t
  | k, l => k.isTerminal && k == l

namespace Pool

/-- Compares the structures of two patterns, along paths of at most `fuel` patterns. Where the
digests differ, nothing below is looked at; where they agree, they are not relied on. -/
def structurallyEqWithin (p : Pool) (sameDigest : Shape → Shape → Bool) :
    (fuel : Nat) → PatternId → PatternId → Bool
  | 0, a, b => a == b
  | fuel + 1, a, b =>
    a == b ||
      match p.get? a, p.get? b with
      | some m, some n =>
        sameDigest m.summary.shape n.summary.shape &&
          m.kind.agrees (p.structurallyEqWithin sameDigest fuel) n.kind
      | _, _ => false

def structurallyEq (p : Pool) (a b : PatternId) : Bool :=
  p.structurallyEqWithin p.sameDigest p.nodes.size a b

end Pool

end Sigil
