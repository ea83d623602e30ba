import Sigil.Random
import Sigil.Tree.Match
import Sigil.Tree.Measure

namespace Sigil

def maxAttempts : Nat := 16

/-- Applications that a repetition of a possibly empty pattern may add to its minimum. -/
def nullableGrowth : Nat := 4

/-- The pieces produced so far, the last one first, and their number of bits. -/
structure Produced where
  pieces : List Bits := []
  length : Nat := 0

namespace Produced

def push (out : Produced) (piece : Bits) : Produced :=
  ⟨piece :: out.pieces, out.length + piece.length⟩

def bits (out : Produced) : Bits := out.pieces.reverse.flatten

end Produced

/-- Generates up to `count` instances one after the other with `generate`, which is given a budget.
Each leaves the least length `low` to every one after it. -/
def generateTimes {σ : Type} (generate : Nat → StateM σ (Option Bits)) (low budget : Nat) :
    (count : Nat) → Produced → StateM σ (Option Bits)
  | 0, out => return some out.bits
  | count + 1, out => do
    match ← generate (budget - out.length - satMul count low) with
    | none => return none
    | some piece => generateTimes generate low budget count (out.push piece)

/-- The greatest number of applications to generate: allowed by the repetition, within the growth of
an unbounded one, and fitting in the budget, but never less than the minimum. -/
def maxCount (r : Repeat) (low budget growthBits : Nat) : Nat :=
  let growth := if low = 0 then nullableGrowth else growthBits / low
  let fitting := if low = 0 then inf else budget / low
  min (min (r.max.getD inf) (satAdd r.min growth)) (max fitting r.min)

def randomBits {σ : Type} [RandomSource σ] : (count : Nat) → Bits → StateM σ Bits
  | 0, reversed => return reversed.reverse
  | count + 1, reversed => do randomBits count ((← Random.bit) :: reversed)

def randomVariants {σ : Type} [RandomSource σ] (l : Literal) (bytes : List UInt8) :
    StateM σ Bits := do
  let picked ← bytes.mapM fun byte => do
    let variants := l.variants byte
    return variants.getD (← Random.index variants.length) byte
  return .ofBytes picked

namespace Tree

def leastLength (ts : List (Tree Note)) : Nat := ts.foldl (fun sum t => satAdd sum t.sample.low) 0

/-- Places of the alternatives to choose among: those that fit in the budget, or else all that have
instances. -/
def candidates (ts : List (Tree Note)) (budget : Nat) : List Nat :=
  let defined := ts.zipIdx.filter fun (t, _) => decide t.sample.Defined
  let fitting := defined.filter fun (t, _) => decide (t.sample.low ≤ budget)
  (if fitting.isEmpty then defined else fitting).map (·.2)

variable {σ : Type} [RandomSource σ]

mutual

/-- A random instance, of at most `budget` bits if possible; none if there are no instances. -/
def generate (growthBits : Nat) : Tree Note → (budget : Nat) → StateM σ (Option Bits)
  | .node n (.lit l), _ =>
    match l.flaggedBytes? n.lead with
    | some bytes => some <$> randomVariants l bytes
    | none => return some l.bits
  | .node _ (.any bits), _ => some <$> randomBits bits []
  | .node _ (.range lo hi), _ => (fun b => some (.ofByte b)) <$> Random.byte lo hi
  | .node _ (.anchor _), _ => return some []
  | .node _ (.alt ts), budget => do
    match candidates ts budget with
    | [] => return none
    | places => generateNth growthBits ts (places.getD (← Random.index places.length) 0) budget
  | .node _ (.seq ts), budget => generateInOrder growthBits ts budget (leastLength ts) {}
  | .node _ (.rep t r), budget =>
    if ¬ t.sample.Defined then return if r.min = 0 then some [] else none
    else do
      let max := maxCount r t.sample.low budget growthBits
      let count ← if r.min < max then Random.number r.min max else pure r.min
      generateTimes (generate growthBits t) t.sample.low budget count {}
  | .node _ (.ctx _ t), budget => generate growthBits t budget

def generateNth (growthBits : Nat) :
    List (Tree Note) → (index budget : Nat) → StateM σ (Option Bits)
  | [], _, _ => return none
  | t :: _, 0, budget => generate growthBits t budget
  | _ :: ts, index + 1, budget => generateNth growthBits ts index budget

/-- An instance of each tree in turn; `reserved` bits are what all of them need at least. -/
def generateInOrder (growthBits : Nat) :
    List (Tree Note) → (budget reserved : Nat) → Produced → StateM σ (Option Bits)
  | [], _, _, out => return some out.bits
  | t :: ts, budget, reserved, out => do
    let later := reserved - t.sample.low
    match ← generate growthBits t (budget - out.length - later) with
    | none => return none
    | some piece => generateInOrder growthBits ts budget later (out.push piece)

end

def sampleWithin (t : Tree Note) (growthBits : Nat) (bound : BitRange) :
    (attempts : Nat) → StateM σ (Option Bits)
  | 0 => return none
  | attempts + 1 => do
    match ← t.generate growthBits bound.high with
    | none => sampleWithin t growthBits bound attempts
    | some bits =>
      if bound.Admits bits.length then return some bits
      else sampleWithin t growthBits bound attempts

def random (t : Tree Note) (growthBits : Nat) (bound : BitRange) : StateM σ (Option Bits) :=
  if ¬ t.sample.Overlaps bound then return none
  else t.sampleWithin growthBits bound maxAttempts

end Tree

def Pool.random {σ : Type} [RandomSource σ] (p : Pool) (id : PatternId) (bound : BitRange) :
    StateM σ (Option Bits) :=
  match p.tree? id with
  | some t => t.random p.growthBits bound
  | none => return none

end Sigil
