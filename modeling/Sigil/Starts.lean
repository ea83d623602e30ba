import Sigil.Buffer
import Sigil.ByteSet

namespace Sigil

/-- The bytes that the instances of a pattern can begin with. For an instance shorter than a byte
these are all the bytes that begin with its bits. -/
structure Starts where
  bytes : ByteSet := .empty
  /-- The pattern has an instance of no bits, which says nothing about the byte that follows. -/
  nullable : Bool := false
deriving DecidableEq

namespace Starts

def never : Starts := ⟨.empty, false⟩

def onlyEmpty : Starts := ⟨.empty, true⟩

def any : Starts := ⟨.all, false⟩

/-- Starts of a pattern whose instances begin with the first `width` bits of `byte`. All eight count
when the width is larger. -/
def ofLeadingBits (byte : UInt8) (width : Nat) : Starts :=
  match min width 8 with
  | 0 => onlyEmpty
  | width =>
    let free := 1 <<< (8 - width)
    let low := byte.toNat / free * free
    ⟨.ofRange (UInt8.ofNat low) (UInt8.ofNat (low + (free - 1))), false⟩

def union (s t : Starts) : Starts := ⟨s.bytes.union t.bytes, s.nullable || t.nullable⟩

/-- Starts of an instance of the first followed by an instance of the second. -/
def andThen (s t : Starts) : Starts :=
  if s.nullable then ⟨s.bytes.union t.bytes, t.nullable⟩ else s

end Starts

/-- A set of bytes that begin no match. -/
structure SkipTable where
  bytes : ByteSet := .empty
deriving DecidableEq

namespace SkipTable

def trivial : SkipTable := ⟨.empty⟩

def ofStarts (s : Starts) : SkipTable := if s.nullable then trivial else ⟨s.bytes.complement⟩

def skips (t : SkipTable) (byte : UInt8) : Bool := t.bytes.contains byte

def size (t : SkipTable) : Nat := t.bytes.size

def IsTrivial (t : SkipTable) : Prop := t.bytes.IsEmpty

instance (t : SkipTable) : Decidable t.IsTrivial := inferInstanceAs (Decidable (ByteSet.IsEmpty _))

/-- From byte `index` on, the first of `count` bytes that is not skipped, or the index past them. -/
def scan (t : SkipTable) (data : Buffer) : (count index : Nat) → Nat
  | 0, index => index
  | count + 1, index =>
    if t.skips (data.getD index 0) then t.scan data count (index + 1) else index

/-- Index of the first byte of `data[start..stop]` that is not skipped, or `stop` if all are. -/
def nextCandidate (t : SkipTable) (data : Buffer) (start stop : Nat) : Nat :=
  if t.IsTrivial ∨ stop ≤ start then min start stop else t.scan data (stop - start) start

def text (t : SkipTable) : String := s!"SkipTable({t.size} skipped)"

theorem skips_ofStarts (s : Starts) (b : UInt8) :
    (ofStarts s).skips b = (!s.nullable && !s.bytes.contains b) := by
  unfold ofStarts skips
  split <;> simp_all [trivial, ByteSet.contains_empty, ByteSet.contains_complement]

end SkipTable

end Sigil
