import Sigil.Offset

namespace Sigil

/-- A range of bit offsets, or of bit lengths. -/
structure BitRange where
  low : Nat
  high : Nat
deriving DecidableEq, Repr

namespace BitRange

def full : BitRange := ⟨0, inf⟩

def undefined : BitRange := ⟨inf, 0⟩

/-- The one length `length`; as a region, the empty region at that offset. -/
def fixed (length : Nat) : BitRange := ⟨length, length⟩

def Defined (r : BitRange) : Prop := r.low ≤ r.high

def IsEmpty (r : BitRange) : Prop := r.high ≤ r.low

def Degenerate (r : BitRange) : Prop := r.low = r.high

def Unbounded (r : BitRange) : Prop := r.high = inf

def Contains (r : BitRange) (bit : Nat) : Prop := r.low ≤ bit ∧ bit < r.high

def Admits (r : BitRange) (length : Nat) : Prop := r.low ≤ length ∧ length ≤ r.high

def Overlaps (r s : BitRange) : Prop :=
  r.Defined ∧ s.Defined ∧ r.low ≤ s.high ∧ s.low ≤ r.high

def Within (r s : BitRange) : Prop := s.low ≤ r.low ∧ r.high ≤ s.high

instance (r : BitRange) : Decidable r.Defined := inferInstanceAs (Decidable (_ ≤ _))
instance (r : BitRange) : Decidable r.IsEmpty := inferInstanceAs (Decidable (_ ≤ _))
instance (r : BitRange) : Decidable r.Degenerate := inferInstanceAs (Decidable (_ = _))
instance (r : BitRange) : Decidable r.Unbounded := inferInstanceAs (Decidable (_ = _))
instance (r : BitRange) (bit : Nat) : Decidable (r.Contains bit) :=
  inferInstanceAs (Decidable (_ ∧ _))
instance (r : BitRange) (length : Nat) : Decidable (r.Admits length) :=
  inferInstanceAs (Decidable (_ ∧ _))
instance (r s : BitRange) : Decidable (r.Overlaps s) := inferInstanceAs (Decidable (_ ∧ _))
instance (r s : BitRange) : Decidable (r.Within s) := inferInstanceAs (Decidable (_ ∧ _))

def size (r : BitRange) : Nat := r.high - r.low

/-- The least range that covers both; an undefined range adds nothing. -/
def hull (r s : BitRange) : BitRange :=
  if ¬ s.Defined then r
  else if ¬ r.Defined then s
  else ⟨min r.low s.low, max r.high s.high⟩

/-- The region cut at `limit`; a region past the limit becomes empty there. -/
def clip (r : BitRange) (limit : Nat) : BitRange :=
  ⟨min r.low (min r.high limit), min r.high limit⟩

/-- The lengths of an instance of the first followed by an instance of the second. -/
def concat (r s : BitRange) : BitRange :=
  if r.Defined ∧ s.Defined then ⟨satAdd r.low s.low, satAdd r.high s.high⟩ else undefined

/-- Written as a half-open interval, with `inf` for the absent bound. -/
def text (r : BitRange) : String :=
  if ¬ r.Defined then "[undefined]"
  else if r.Unbounded then s!"[{r.low}, inf)"
  else s!"[{r.low}, {r.high})"

end BitRange

end Sigil
