namespace Sigil

def inf : Nat := 0xFFFFFFFFFFFFFFFF

def satAdd (a b : Nat) : Nat := min (a + b) inf

def satMul (a b : Nat) : Nat := min (a * b) inf

theorem satAdd_le_inf (a b : Nat) : satAdd a b ≤ inf := Nat.min_le_right ..

theorem satMul_le_inf (a b : Nat) : satMul a b ≤ inf := Nat.min_le_right ..

theorem satAdd_eq {a b : Nat} (h : a + b ≤ inf) : satAdd a b = a + b := Nat.min_eq_left h

theorem satMul_eq {a b : Nat} (h : a * b ≤ inf) : satMul a b = a * b := Nat.min_eq_left h

namespace Offset

def ofBytes (bytes : Nat) : Nat := satMul bytes 8

def toByte (bit : Nat) : Nat := bit / 8

/-- Number of bytes that hold `bits` bits, the last of them possibly in part. -/
def byteCount (bits : Nat) : Nat := (bits + 7) / 8

/-- The offset is a byte boundary. -/
def Aligned (bit : Nat) : Prop := bit % 8 = 0

instance (bit : Nat) : Decidable (Aligned bit) := inferInstanceAs (Decidable (_ = _))

theorem ofBytes_eq {bytes : Nat} (h : bytes * 8 ≤ inf) : ofBytes bytes = bytes * 8 := satMul_eq h

end Offset

end Sigil
