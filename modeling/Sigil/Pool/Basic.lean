import Sigil.DataFormat
import Sigil.Hit
import Sigil.MatchMode
import Sigil.PatternError
import Sigil.Summary

namespace Sigil

/-- Replaces the matching of a pattern. It is given the whole bytes up to the end of the region, the
offset to start at and the mode, and answers with a hit or not at all. -/
abbrev Matcher := Buffer → Nat → MatchMode → Option Hit

/-- What people say about a pattern. -/
structure Description where
  name : Option String := none
  doc : Option String := none
  format : Option DataFormat := none
  /-- Physical unit of the encoded value. -/
  unit : Option String := none
deriving DecidableEq

structure Node where
  kind : Kind PatternId
  /-- Unused bits before the first bit of a literal in the bytes that hold it. Patterns that differ
  in nothing else have the same structure. -/
  lead : Fin 8 := 0
  description : Description := {}
  matcher : Option Matcher := none
  /-- The patterns that have this one among their sub-patterns, each once. -/
  supers : List PatternId := []
  /-- Number of holders outside the pool, which are taken to be fewer than `2 ^ 32`. -/
  roots : Nat := 0
  summary : Summary
  /-- The node represents its shape. -/
  canonical : Bool := false

structure Pool where
  /-- The node of each identifier ever given out; destroyed patterns leave a hole. -/
  nodes : Array (Option Node) := #[]
  /-- Number of nodes that are no holes. -/
  live : Nat := 0
  /-- The canonical patterns under their shapes, oldest first. -/
  representatives : List (Shape × PatternId) := []
  /-- How many bits an unbounded repetition may grow in random instances. -/
  growthBits : Nat := 64
  /-- The digests of two structures are equal. In most pools digests tell all structures apart. -/
  sameDigest : Shape → Shape → Bool := fun s t => decide (s = t)

/-- A change of a pool that may fail. What was done before a failure stays done. -/
abbrev Edit := EStateM PatternError Pool

namespace Pool

def ofDigest {δ : Type} [DecidableEq δ] (digest : Shape → δ) : Pool :=
  { sameDigest := fun s t => decide (digest s = digest t) }

variable (p : Pool)

def get? (id : PatternId) : Option Node := p.nodes[id.index]?.join

def contains (id : PatternId) : Bool := (p.get? id).isSome

def ids : List PatternId := ((List.range p.nodes.size).map PatternId.mk).filter p.contains

def modify (id : PatternId) (f : Node → Node) : Pool :=
  { p with nodes := p.nodes.modify id.index (Option.map f) }

def summary (id : PatternId) : Summary := ((p.get? id).map (·.summary)).getD .absent

def summarize (k : Kind PatternId) : Summary := .ofKind (k.map p.summary)

def sample (id : PatternId) : BitRange := (p.summary id).sample

def starts (id : PatternId) : Starts := (p.summary id).starts

def skips (id : PatternId) : SkipTable := (p.summary id).skips

/-- The structure of a live pattern. Patterns of equal structure have equal digests. -/
def digest (id : PatternId) : Option Shape := (p.get? id).map (·.summary.shape)

/-- The summaries agree, as far as the digests of the structures tell. -/
def sameSummary (s t : Summary) : Bool :=
  s.sample == t.sample && s.starts == t.starts && s.skips == t.skips &&
    p.sameDigest s.shape t.shape

def lead (id : PatternId) : Fin 8 := ((p.get? id).map (·.lead)).getD 0

def supers (id : PatternId) : List PatternId := ((p.get? id).map (·.supers)).getD []

def roots (id : PatternId) : Nat := ((p.get? id).map (·.roots)).getD 0

def link (sub super : PatternId) : Pool :=
  p.modify sub fun n => { n with supers := n.supers.insert super }

def unlink (sub super : PatternId) : Pool :=
  p.modify sub fun n => { n with supers := n.supers.erase super }

def forget (id : PatternId) : Pool :=
  { p with representatives := p.representatives.filter (·.2 ≠ id) }

/-- Adds a node under a new identifier and links it to its sub-patterns. -/
def add (k : Kind PatternId) (lead : Fin 8 := 0) : PatternId × Pool :=
  let id : PatternId := ⟨p.nodes.size⟩
  let node : Node := { kind := k, lead := lead, summary := p.summarize k }
  let grown : Pool := { p with nodes := p.nodes.push (some node), live := p.live + 1 }
  (id, k.subs.foldl (fun q sub => q.link sub id) grown)

/-! ## Walking the graph

A path through live patterns visits each of them once, so the number of nodes bounds its length. -/

/-- Adds to `seen` the live patterns at and under `id`, following paths of at most `fuel`
patterns. -/
def visit : (fuel : Nat) → (seen : List PatternId) → PatternId → List PatternId
  | 0, seen, _ => seen
  | fuel + 1, seen, id =>
    if id ∈ seen then seen
    else match p.get? id with
      | none => seen
      | some node => node.kind.subs.foldl (visit fuel) (id :: seen)

def cone (id : PatternId) : List PatternId := p.visit p.nodes.size [] id

def reaches (start target : PatternId) : Bool := (p.cone start).contains target

end Pool

def Edit.node (id : PatternId) : Edit Node := fun p =>
  match p.get? id with
  | some node => .ok node p
  | none => .error (.unknownPattern id) p

end Sigil
