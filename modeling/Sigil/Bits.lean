namespace Sigil

abbrev Bits := List Bool

namespace Bits

def ofNat : Nat → Nat → Bits
  | 0, _ => []
  | width + 1, n => n.testBit width :: ofNat width n

@[simp] theorem length_ofNat (width n : Nat) : (ofNat width n).length = width := by
  induction width with
  | zero => rfl
  | succ width ih => simp [ofNat, ih]

def toNat (bits : Bits) : Nat := bits.foldl (fun n b => 2 * n + b.toNat) 0

def ofByte (byte : UInt8) : Bits := ofNat 8 byte.toNat

@[simp] theorem length_ofByte (byte : UInt8) : (ofByte byte).length = 8 := length_ofNat ..

def ofBytes (bytes : List UInt8) : Bits := bytes.flatMap ofByte

theorem length_ofBytes (bytes : List UInt8) : (ofBytes bytes).length = 8 * bytes.length := by
  induction bytes with
  | nil => rfl
  | cons b bs ih => simp_all [ofBytes]; omega

/-- The byte that begins with up to eight given bits and goes on with zeros. -/
def leadingByte (bits : Bits) : UInt8 := UInt8.ofNat (toNat bits <<< (8 - bits.length))

def toBytes : Bits → List UInt8
  | b₀ :: b₁ :: b₂ :: b₃ :: b₄ :: b₅ :: b₆ :: b₇ :: rest =>
    leadingByte [b₀, b₁, b₂, b₃, b₄, b₅, b₆, b₇] :: toBytes rest
  | [] => []
  | rest => [leadingByte rest]

def WholeBytes (bits : Bits) : Prop := bits.length % 8 = 0

instance (bits : Bits) : Decidable bits.WholeBytes := inferInstanceAs (Decidable (_ = _))

def text (bits : Bits) : String := String.ofList (bits.map fun b => if b then '1' else '0')

end Bits

end Sigil
