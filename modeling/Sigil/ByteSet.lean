namespace Sigil

/-- A set of byte values: bit `b` of the mask says whether `b` belongs to it. -/
structure ByteSet where
  mask : BitVec 256
deriving DecidableEq

namespace ByteSet

def empty : ByteSet := ⟨0⟩

def all : ByteSet := ⟨BitVec.allOnes 256⟩

def contains (s : ByteSet) (byte : UInt8) : Bool := s.mask.getLsbD byte.toNat

def insert (s : ByteSet) (byte : UInt8) : ByteSet := ⟨s.mask ||| BitVec.twoPow 256 byte.toNat⟩

def union (s t : ByteSet) : ByteSet := ⟨s.mask ||| t.mask⟩

def complement (s : ByteSet) : ByteSet := ⟨~~~s.mask⟩

def ofRange (lo hi : UInt8) : ByteSet :=
  ⟨(BitVec.allOnes 256 <<< lo.toNat) &&& (BitVec.allOnes 256 >>> (255 - hi.toNat))⟩

def bytes : List UInt8 := (List.range 256).map UInt8.ofNat

def toList (s : ByteSet) : List UInt8 := bytes.filter s.contains

def size (s : ByteSet) : Nat := s.toList.length

def IsEmpty (s : ByteSet) : Prop := s = empty

def IsFull (s : ByteSet) : Prop := s = all

instance (s : ByteSet) : Decidable s.IsEmpty := inferInstanceAs (Decidable (_ = _))
instance (s : ByteSet) : Decidable s.IsFull := inferInstanceAs (Decidable (_ = _))

/-- Adds a byte above all others to ascending runs of consecutive bytes, the last run first. -/
def extendRuns (runs : List (UInt8 × UInt8)) (byte : UInt8) : List (UInt8 × UInt8) :=
  match runs with
  | (first, last) :: rest =>
    if last.toNat + 1 = byte.toNat then (first, byte) :: rest else (byte, byte) :: runs
  | [] => [(byte, byte)]

/-- The maximal runs of consecutive members, each by its first and last byte, ascending. -/
def runs (s : ByteSet) : List (UInt8 × UInt8) := (s.toList.foldl extendRuns []).reverse

def hexByte (byte : UInt8) : String :=
  let digit (n : Nat) := Nat.digitChar n
  String.ofList [digit (byte.toNat / 16), digit (byte.toNat % 16)]

def text (s : ByteSet) : String :=
  "\x7b" ++ String.intercalate ", " (s.toList.map fun b => "\"" ++ hexByte b ++ "\"") ++ "\x7d"

/-! ## Membership -/

theorem contains_empty (byte : UInt8) : empty.contains byte = false := by
  simp [contains, empty]

theorem contains_all (byte : UInt8) : all.contains byte = true := by
  simp only [contains, all, BitVec.getLsbD_allOnes, decide_eq_true_eq]
  exact byte.toNat_lt

theorem contains_insert (s : ByteSet) (b c : UInt8) :
    (s.insert b).contains c = (s.contains c || b == c) := by
  have hc : c.toNat < 256 := c.toNat_lt
  have heq : (b == c) = decide (c.toNat = b.toNat) := by
    by_cases h : b = c
    · simp [h]
    · have hn : ¬ c.toNat = b.toNat := fun e => h (UInt8.toNat_inj.1 e).symm
      simp [h, hn]
  rw [heq]
  simp [contains, insert, hc]

theorem contains_union (s t : ByteSet) (b : UInt8) :
    (s.union t).contains b = (s.contains b || t.contains b) := by
  simp [contains, union]

theorem contains_complement (s : ByteSet) (b : UInt8) :
    s.complement.contains b = !s.contains b := by
  have hb := b.toNat_lt
  simp_all [contains, complement]

theorem contains_ofRange (lo hi b : UInt8) :
    (ofRange lo hi).contains b = decide (lo ≤ b ∧ b ≤ hi) := by
  have hb := b.toNat_lt
  have hh := hi.toNat_lt
  simp only [contains, ofRange, BitVec.getLsbD_and, BitVec.getLsbD_shiftLeft,
    BitVec.getLsbD_ushiftRight, BitVec.getLsbD_allOnes, UInt8.le_iff_toNat_le]
  grind

theorem mem_toList (s : ByteSet) (b : UInt8) : b ∈ s.toList ↔ s.contains b = true := by
  simp only [toList, bytes, List.mem_filter, List.mem_map, List.mem_range]
  exact ⟨fun h => h.2, fun h => ⟨⟨b.toNat, b.toNat_lt, by simp⟩, h⟩⟩

end ByteSet

end Sigil
