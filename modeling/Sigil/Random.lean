namespace Sigil

/-- A generator of random choices. -/
class RandomSource (σ : Type) where
  bit : σ → Bool × σ
  byte (lo hi : UInt8) : σ → UInt8 × σ
  number (lo hi : Nat) : σ → Nat × σ
  byte_mem (lo hi : UInt8) (s : σ) : lo ≤ hi → lo ≤ (byte lo hi s).1 ∧ (byte lo hi s).1 ≤ hi
  number_mem (lo hi : Nat) (s : σ) : lo ≤ hi → lo ≤ (number lo hi s).1 ∧ (number lo hi s).1 ≤ hi

namespace Random

variable {σ : Type} [RandomSource σ]

def bit : StateM σ Bool := RandomSource.bit

def byte (lo hi : UInt8) : StateM σ UInt8 := RandomSource.byte lo hi

def number (lo hi : Nat) : StateM σ Nat := RandomSource.number lo hi

def index (n : Nat) : StateM σ Nat := number 0 (n - 1)

end Random

/-- The choices still to make, each as its distance from the least value. Those that lie out of
range and those that are missing are zero. -/
structure Choices where
  rest : List Nat

namespace Choices

def next (most : Nat) (c : Choices) : Nat × Choices :=
  match c.rest with
  | [] => (0, c)
  | choice :: rest => (if choice ≤ most then choice else 0, ⟨rest⟩)

theorem next_le (most : Nat) (c : Choices) : (c.next most).1 ≤ most := by
  obtain ⟨_ | ⟨choice, rest⟩⟩ := c
  · exact Nat.zero_le most
  · unfold next
    dsimp only
    split
    · assumption
    · exact Nat.zero_le most

instance : RandomSource Choices where
  bit c := (c.next 1).map (· == 1) id
  byte lo hi c := (c.next (hi.toNat - lo.toNat)).map (fun n => UInt8.ofNat (lo.toNat + n)) id
  number lo hi c := (c.next (hi - lo)).map (lo + ·) id
  byte_mem lo hi c hle := by
    have hnext := c.next_le (hi.toNat - lo.toNat)
    have hbyte : hi.toNat < UInt8.size := hi.toNat_lt
    rw [UInt8.le_iff_toNat_le] at hle
    rw [Prod.map_fst, UInt8.le_iff_toNat_le, UInt8.le_iff_toNat_le,
      UInt8.toNat_ofNat_of_lt' (by omega)]
    omega
  number_mem lo hi c hle := by
    have hnext := c.next_le (hi - lo)
    rw [Prod.map_fst]
    omega

end Choices

end Sigil
