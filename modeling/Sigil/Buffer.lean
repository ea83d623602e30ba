import Sigil.Bits

namespace Sigil

abbrev Buffer := Array UInt8

namespace Buffer

def bitSize (data : Buffer) : Nat := 8 * data.size

def bit? (data : Buffer) (pos : Nat) : Option Bool :=
  data[pos / 8]?.map fun byte => byte.toNat.testBit (7 - pos % 8)

/-- The eight bits from an offset on, read as a byte. They may straddle two bytes of the buffer. -/
def byteAt? (data : Buffer) (pos : Nat) : Option UInt8 :=
  if pos + 8 ≤ data.bitSize then
    let high := (data.getD (pos / 8) 0).toNat
    let low := (data.getD (pos / 8 + 1) 0).toNat
    some (UInt8.ofNat ((256 * high + low) >>> (8 - pos % 8)))
  else none

def holdsBits (data : Buffer) : Bits → Nat → Bool
  | [], _ => true
  | b :: bits, pos => data.bit? pos == some b && data.holdsBits bits (pos + 1)

def take (data : Buffer) (count : Nat) : Buffer :=
  if data.size ≤ count then data else data.extract 0 count

/-- Whether every byte from `pos` on that faces a byte of `expected` relates to it. -/
def facesBytes (data : Buffer) (related : UInt8 → UInt8 → Bool) : List UInt8 → Nat → Bool
  | [], _ => true
  | e :: expected, pos =>
    (data.byteAt? pos).any (related e) && data.facesBytes related expected (pos + 8)

theorem size_take (data : Buffer) (count : Nat) : (data.take count).size = min count data.size := by
  unfold take
  split
  · omega
  · simp

end Buffer

end Sigil
