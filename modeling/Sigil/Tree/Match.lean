import Sigil.Pool.Unfold

namespace Sigil

/-- Applies `step` again and again, each time where the last hit stopped, until it fails, hits
nothing or has been applied as often as allowed. Answers the hit of all applications and their
number; an empty application counts as often as is still needed. -/
def repeatGreedy (step : Nat → Option Hit) (r : Repeat) : (fuel : Nat) → Hit → Nat → Hit × Nat
  | 0, hit, count => (hit, count)
  | fuel + 1, hit, count =>
    if r.max.any (· ≤ count) then (hit, count)
    else match step hit.stop with
      | none => (hit, count)
      | some next =>
        if next.IsEmpty then (hit.cover next, max (count + 1) r.min)
        else repeatGreedy step r fuel (hit.cover next) (count + 1)

/-- The hit of as many applications of `step` as possible, if there are enough of them. Each one but
the last moves at least one bit towards the limit. -/
def matchRepeat (step : Nat → Option Hit) (r : Repeat) (pos limit : Nat) : Option Hit :=
  let (hit, count) := repeatGreedy step r (limit - pos + 1) (.emptyAt pos) 0
  if r.min ≤ count then some hit else none

namespace Tree

mutual

/-- Matches exactly at `pos`. A matcher that answers with another offset, or past the limit, is not
believed. -/
def matchAt (data : Buffer) (limit : Nat) : Tree Note → Nat → Option Hit
  | .node note kind, pos =>
    match note.matcher with
    | some matcher =>
      (matcher (data.take (Offset.toByte limit)) pos .anchored).filter fun hit =>
        hit.offset == pos && decide (hit.stop ≤ limit)
    | none =>
      if note.sample.Defined ∧ note.sample.low ≤ limit - pos then
        matchKind data limit note.lead kind pos
      else none

def matchKind (data : Buffer) (limit : Nat) (lead : Fin 8) : Kind (Tree Note) → Nat → Option Hit
  | .lit l, pos => if l.occursAt lead data pos limit then some ⟨pos, l.length⟩ else none
  | .any bits, pos => some ⟨pos, bits⟩
  | .range lo hi, pos =>
    if (data.byteAt? pos).any fun b => decide (lo ≤ b ∧ b ≤ hi) then some ⟨pos, 8⟩ else none
  | .anchor a, pos => if a.holds data pos then some (.emptyAt pos) else none
  | .alt subs, pos => matchFirst data limit subs pos
  | .seq subs, pos => matchInOrder data limit subs (.emptyAt pos)
  | .rep sub r, pos => matchRepeat (matchAt data limit sub) r pos limit
  | .ctx _ sub, pos => matchAt data limit sub pos

def matchFirst (data : Buffer) (limit : Nat) : List (Tree Note) → Nat → Option Hit
  | [], _ => none
  | t :: ts, pos =>
    match matchAt data limit t pos with
    | some hit => some hit
    | none => matchFirst data limit ts pos

/-- Goes on from `hit` with each tree in turn, and answers the hit of them all. -/
def matchInOrder (data : Buffer) (limit : Nat) : List (Tree Note) → Hit → Option Hit
  | [], hit => some hit
  | t :: ts, hit =>
    match matchAt data limit t hit.stop with
    | some next => matchInOrder data limit ts (hit.cover next)
    | none => none

end

/-- The first offset to try from `pos` on: on a byte boundary, bytes before byte `last` that begin
no instance are passed over. -/
def nextOffset (t : Tree Note) (data : Buffer) (last pos : Nat) : Nat :=
  if Offset.Aligned pos ∧ ¬ t.skips.IsTrivial then
    max (8 * t.skips.nextCandidate data (Offset.toByte pos) last) pos
  else pos

/-- Tries `fuel` offsets from `pos` on, eight bits apart, while they do not exceed the limit. -/
def searchFrom (t : Tree Note) (data : Buffer) (limit : Nat) : (fuel pos : Nat) → Option Hit
  | 0, _ => none
  | fuel + 1, pos =>
    let tried := t.nextOffset data (Offset.toByte limit) pos
    match t.matchAt data limit tried with
    | some hit => some hit
    | none => if limit < tried + 8 then none else searchFrom t data limit fuel (tried + 8)

def search (t : Tree Note) (data : Buffer) (region : BitRange) : Option Hit :=
  t.searchFrom data region.high (region.size / 8 + 1) region.low

def Fits (hit : Hit) (region : BitRange) (mode : MatchMode) : Prop :=
  region.low ≤ hit.offset ∧ hit.stop ≤ region.high ∧
    (mode ≠ .search → hit.offset = region.low) ∧ (mode = .full → hit.stop = region.high)

instance (hit : Hit) (region : BitRange) (mode : MatchMode) : Decidable (Fits hit region mode) :=
  inferInstanceAs (Decidable (_ ∧ _ ∧ _ ∧ _))

/-- Matches a region of a buffer. The region is cut where the buffer ends; anchors see the whole
buffer. -/
def matchIn (t : Tree Note) (data : Buffer) (region : BitRange) (mode : MatchMode) : Option Hit :=
  if ¬ region.Defined ∨ data.bitSize < region.low then none
  else
    let region := region.clip data.bitSize
    match t.note.matcher, mode with
    | some matcher, _ =>
      (matcher (data.take (Offset.toByte region.high)) region.low mode).filter fun hit =>
        decide (Fits hit region mode)
    | none, .anchored => t.matchAt data region.high region.low
    | none, .full =>
      (t.matchAt data region.high region.low).filter fun hit => hit.stop == region.high
    | none, .search => t.search data region

def accepts (t : Tree Note) (data : Buffer) (length : Nat) : Bool :=
  (t.matchIn data ⟨0, length⟩ .full).isSome

end Tree

namespace Pool

def matchIn (p : Pool) (id : PatternId) (data : Buffer) (region : BitRange) (mode : MatchMode) :
    Option Hit := do
  (← p.tree? id).matchIn data region mode

def matchAt (p : Pool) (id : PatternId) (data : Buffer) (pos : Nat) : Option Hit :=
  p.matchIn id data ⟨pos, inf⟩ .anchored

end Pool

end Sigil
