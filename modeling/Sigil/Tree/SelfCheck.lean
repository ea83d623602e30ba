import Sigil.Tree.Sample

namespace Sigil

/-- What is wrong with an instance. -/
inductive SelfCheckFailure where
  | noMatch
  /-- The skip table holds the first byte. -/
  | skipped
deriving DecidableEq

def SelfCheckFailure.name : SelfCheckFailure → String
  | noMatch => "NoMatch"
  | skipped => "Skipped"

/-- An instance that a pattern fails on. -/
structure SelfCheckError where
  pattern : PatternId
  instanceBits : Bits
  failure : SelfCheckFailure
deriving DecidableEq

namespace SelfCheckError

/-- The bytes of the instance, the last one completed with zero bits. -/
def bytes (e : SelfCheckError) : List UInt8 := e.instanceBits.toBytes

def message (e : SelfCheckError) : String :=
  let bytes := String.intercalate ", " (e.bytes.map ByteSet.hexByte)
  s!"pattern {e.pattern.text} fails on instance [{bytes}] " ++
    s!"({e.instanceBits.length} bits): {e.failure.name}"

end SelfCheckError

namespace Tree

/-- What is wrong with an instance, if anything. The first byte counts only if it is whole. -/
def check (t : Tree Note) (bits : Bits) : Option SelfCheckFailure :=
  let bytes := bits.toBytes
  if (t.matchIn bytes.toArray .full .anchored).isNone then some .noMatch
  else if 8 ≤ bits.length ∧ (bytes.head?.any t.skips.skips) then some .skipped
  else none

variable {σ : Type} [RandomSource σ]

/-- The first of `count` random instances with something wrong, and what. Ends early where no
instance can be generated. -/
def selfCheck (t : Tree Note) (growthBits : Nat) :
    (count : Nat) → StateM σ (Option (Bits × SelfCheckFailure))
  | 0 => return none
  | count + 1 => do
    match ← t.random growthBits .full with
    | none => return none
    | some bits =>
      match t.check bits with
      | some failure => return some (bits, failure)
      | none => selfCheck t growthBits count

end Tree

def Pool.selfCheck {σ : Type} [RandomSource σ] (p : Pool) (id : PatternId) (count : Nat) :
    StateM σ (Except SelfCheckError Unit) :=
  match p.tree? id with
  | none => return .ok ()
  | some t => do
    match ← t.selfCheck p.growthBits count with
    | some (bits, failure) => return .error ⟨id, bits, failure⟩
    | none => return .ok ()

end Sigil
