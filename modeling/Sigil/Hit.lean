import Sigil.BitRange

namespace Sigil

/-- A match of `length` bits that starts at bit `offset`. -/
structure Hit where
  offset : Nat
  length : Nat
deriving DecidableEq, Repr

namespace Hit

def emptyAt (offset : Nat) : Hit := ⟨offset, 0⟩

def stop (h : Hit) : Nat := satAdd h.offset h.length

def IsEmpty (h : Hit) : Prop := h.length = 0

instance (h : Hit) : Decidable h.IsEmpty := inferInstanceAs (Decidable (_ = _))

def range (h : Hit) : BitRange := ⟨h.offset, h.stop⟩

/-- First byte that the hit touches, and the first byte past all that it touches. -/
def byteRange (h : Hit) : Nat × Nat := (Offset.toByte h.offset, Offset.byteCount h.stop)

def cover (h g : Hit) : Hit :=
  let start := min h.offset g.offset
  ⟨start, max h.stop g.stop - start⟩

def shift (h : Hit) (delta : Nat) : Hit := ⟨satAdd h.offset delta, h.length⟩

def text (h : Hit) : String := s!"{h.offset}+{h.length}"

end Hit

end Sigil
