import Sigil.Pool.Build

namespace Sigil

namespace Matcher

def position (cls : UInt8 → Bool) (data : Buffer) (first : Nat) : Option Nat :=
  ((data.toList.drop first).findIdx? cls).map (first + ·)

/-- The first offset from `pos` on, in steps of a byte, where a byte of the class is found before
the buffer ends; at most `fuel` offsets are tried. -/
def findByte (cls : UInt8 → Bool) (data : Buffer) : (fuel pos : Nat) → Option Nat
  | 0, _ => none
  | fuel + 1, pos =>
    match data.byteAt? pos with
    | none => none
    | some b => if cls b then some pos else findByte cls data fuel (pos + 8)

/-- Matches one byte of a class, at any bit offset. A search from a byte boundary looks at the bytes
as they are stored; any other search reads each byte from two of them. -/
def byteClass (cls : UInt8 → Bool) : Matcher := fun data pos mode =>
  if mode.IsAnchored then
    if (data.byteAt? pos).any cls then some ⟨pos, 8⟩ else none
  else if Offset.Aligned pos then
    (position cls data (Offset.toByte pos)).map fun index => ⟨8 * index, 8⟩
  else
    (findByte cls data ((data.bitSize - pos) / 8 + 1) pos).map (⟨·, 8⟩)

def digit : Matcher := byteClass Ascii.isDigit
def hexDigit : Matcher := byteClass Ascii.isHexDigit
def lowercase : Matcher := byteClass Ascii.isLower
def uppercase : Matcher := byteClass Ascii.isUpper
def letter : Matcher := byteClass Ascii.isLetter

def mask (bits : UInt8) : Matcher := byteClass fun b => b &&& ~~~bits == 0

/-- Matches a letter or underscore and the letters, digits and underscores after it. Identifiers
start at byte boundaries only. -/
def identifier : Matcher := fun data pos mode =>
  if ¬ Offset.Aligned pos then none
  else do
    let first := Offset.toByte pos
    let start ←
      if mode.IsAnchored then
        if data[first]?.any Ascii.isIdentifierStart then some first else none
      else position Ascii.isIdentifierStart data first
    let rest := (data.toList.drop (start + 1)).takeWhile Ascii.isWord
    return ⟨8 * start, 8 * (1 + rest.length)⟩

def ofRange? (lo hi : UInt8) : Option Matcher :=
  match lo.toNat, hi.toNat with
  | 0x30, 0x39 => some digit
  | 0x61, 0x7A => some lowercase
  | 0x41, 0x5A => some uppercase
  | 0, 0x01 | 0, 0x03 | 0, 0x07 | 0, 0x0F | 0, 0x1F | 0, 0x3F | 0, 0x7F => some (mask hi)
  | _, _ => none

end Matcher

namespace Edit

def digit : Edit PatternId := do
  let id ← range 0x30 0x39
  setMatcher id (some Matcher.digit)
  return id

def hexDigit : Edit PatternId := do
  let digit ← range 0x30 0x39
  let lower ← range 0x61 0x66
  let upper ← range 0x41 0x46
  let id ← alt [digit, lower, upper]
  setMatcher id (some Matcher.hexDigit)
  return id

def letter : Edit PatternId := do
  let lower ← range 0x61 0x7A
  let upper ← range 0x41 0x5A
  let id ← alt [lower, upper]
  setMatcher id (some Matcher.letter)
  return id

def identifier : Edit PatternId := do
  let lower ← range 0x61 0x7A
  let upper ← range 0x41 0x5A
  let underscore ← lit [0x5F]
  let digit ← range 0x30 0x39
  let start ← alt [lower, upper, underscore]
  let rest ← alt [lower, upper, digit, underscore]
  let tail ← rep rest (.atLeast 0)
  let id ← seq [start, tail]
  setMatcher id (some Matcher.identifier)
  return id

end Edit

namespace Pool

def detectedMatcher? (p : Pool) (id : PatternId) : Option Matcher := do
  let node ← p.get? id
  match node.kind, node.matcher with
  | .range lo hi, none => Matcher.ofRange? lo hi
  | _, _ => none

end Pool

/-- Attaches matchers to the byte ranges at and under `id` that have none, and answers how many got
one. -/
def Edit.detectMatchers (id : PatternId) : Edit Nat := do
  let p ← get
  let found := (p.cone id).filter fun sub => (p.detectedMatcher? sub).isSome
  set (found.foldl (fun q sub => q.modify sub ({ · with matcher := p.detectedMatcher? sub })) p)
  return found.length

end Sigil
