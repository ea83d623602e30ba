import Sigil.Pool.Unfold

namespace Sigil

/-- Positive counts of derivations under their lengths in bits, the longest first. -/
abbrev Census := List (Nat × Nat)

namespace Census

def maxLengths : Nat := 4096

def maxRepetitions : Nat := 4096

/-- `count` derivations of one length, if it does not exceed the cap. -/
def single (length count cap : Nat) : Census :=
  if length ≤ cap ∧ 0 < count then [(length, count)] else []

/-- Puts an entry before shorter ones, or joins it with those of the same length. -/
def cons (entry : Nat × Nat) : Census → Census
  | [] => [entry]
  | next :: rest =>
    if entry.1 = next.1 then (entry.1, satAdd entry.2 next.2) :: rest else entry :: next :: rest

/-- Merges an entry and all that comes after it, where `rest` merges what comes after it. -/
def mergeEntry (entry : Nat × Nat) (rest : Census → Census) : Census → Census
  | [] => entry :: rest []
  | next :: other =>
    if next.1 < entry.1 then entry :: rest (next :: other)
    else if entry.1 = next.1 then (entry.1, satAdd entry.2 next.2) :: rest other
    else next :: mergeEntry entry rest other

def merge : Census → Census → Census
  | [], other => other
  | entry :: rest, other => mergeEntry entry (merge rest) other

/-- Counts after `count` derivations of the given length, within the cap. -/
def after (length count cap : Nat) (c : Census) : Census :=
  c.foldr
    (fun entry shorter =>
      let total := satAdd length entry.1
      if total ≤ cap then cons (total, satMul count entry.2) shorter else shorter)
    []

def bounded (c : Census) : Option Census := if c.length ≤ maxLengths then some c else none

def union (c d : Census) : Option Census := bounded (merge c d)

/-- Counts of an instance of the first followed by an instance of the second, within the cap. -/
def concat (c d : Census) (cap : Nat) : Option Census :=
  bounded ((c.map fun entry => after entry.1 entry.2 cap d).foldr merge [])

/-- Adds to `total` the powers of `unit` that are allowed. `power` is the one of exponent `done`; at
most `fuel` more are computed. -/
def addPowers (unit : Census) (r : Repeat) (cap : Nat) :
    (fuel done : Nat) → (power total : Census) → Option Census
  | 0, done, _, total => if r.max.any (· ≤ done) then some total else none
  | fuel + 1, done, power, total =>
    if r.max.any (· ≤ done) then some total
    else do
      let next ← power.concat unit cap
      if next.isEmpty then return total
      let total ← if r.min ≤ done + 1 then next.union total else some total
      addPowers unit r cap fuel (done + 1) next total

def repetition (unit : Census) (r : Repeat) (cap : Nat) : Option Census :=
  let skipped := if r.min = 0 then single 0 1 cap else []
  if unit.isEmpty then some skipped
  else if r.max = none ∧ (cap = inf ∨ unit.any (·.1 == 0)) then none
  else addPowers unit r cap maxRepetitions 0 (single 0 1 cap) skipped

def total (c : Census) (bound : BitRange) : Nat :=
  c.foldl (fun sum entry => if bound.Admits entry.1 then satAdd sum entry.2 else sum) 0

end Census

namespace Literal

def variantCount (l : Literal) (lead : Fin 8) : Nat :=
  match l.flaggedBytes? lead with
  | some bytes => bytes.foldl (fun n b => satMul n (l.variants b).length) 1
  | none => 1

end Literal

namespace Tree

mutual

def census (cap : Nat) : Tree Note → Option Census
  | .node n (.lit l) => some (.single l.length (l.variantCount n.lead) cap)
  | .node _ (.any bits) =>
    if 64 ≤ bits ∧ bits ≤ cap then none else some (.single bits (2 ^ min bits 63) cap)
  | .node _ (.range lo hi) => some (.single 8 (hi.toNat - lo.toNat + 1) cap)
  | .node _ (.anchor _) => some (.single 0 1 cap)
  | .node _ (.alt ts) => censusAlt cap ts []
  | .node _ (.seq ts) => censusSeq cap ts (.single 0 1 cap)
  | .node _ (.rep t r) => do (← census cap t).repetition r cap
  | .node _ (.ctx _ t) => census cap t

def censusAlt (cap : Nat) : List (Tree Note) → Census → Option Census
  | [], counted => some counted
  | t :: ts, counted => do censusAlt cap ts (← counted.union (← census cap t))

/-- Lets the instances of each tree follow those counted so far, unless there are none. -/
def censusSeq (cap : Nat) : List (Tree Note) → Census → Option Census
  | [], counted => some counted
  | t :: ts, counted =>
    if counted.isEmpty then some counted
    else do censusSeq cap ts (← counted.concat (← census cap t) cap)

end

end Tree

end Sigil
