import Sigil.Ascii
import Sigil.Starts
import Sigil.Text.Quoted

namespace Sigil

-- Numerals of `Fin 8` are read the same under all imports.
instance neZeroEight : @NeZero Nat Zero.ofOfNat0 8 := ⟨by decide⟩

/-- A string of bits, and how loosely it is compared. -/
structure Literal where
  bits : Bits
  /-- The case of ASCII letters is ignored. -/
  nocase : Bool := false
  /-- Dash and underscore are the same. -/
  dash : Bool := false
deriving DecidableEq

namespace Literal

def ofBytes (bytes : List UInt8) : Literal := { bits := .ofBytes bytes }

def ofNat (value length : Nat) : Literal := { bits := .ofNat (min length 64) value }

def length (l : Literal) : Nat := l.bits.length

def IsEmpty (l : Literal) : Prop := l.bits = []

def IsPlain (l : Literal) : Prop := l.nocase = false ∧ l.dash = false

instance (l : Literal) : Decidable l.IsEmpty := inferInstanceAs (Decidable (_ = _))
instance (l : Literal) : Decidable l.IsPlain := inferInstanceAs (Decidable (_ ∧ _))

/-- The bytes that hold the bits, where the first bit comes after `lead` unused ones. Unless there
are none of them, the bytes are not those of the bits, and there may be one more. -/
def stored (l : Literal) (lead : Fin 8) : List UInt8 :=
  Bits.toBytes (List.replicate lead false ++ l.bits)

def bytes? (l : Literal) (lead : Fin 8) : Option (List UInt8) :=
  if l.bits.WholeBytes then some (l.stored lead) else none

/-- The bytes that the flags apply to: those of a literal with flags made of whole bytes. -/
def flaggedBytes? (l : Literal) (lead : Fin 8) : Option (List UInt8) :=
  if l.IsPlain then none else l.bytes? lead

def append (l m : Literal) : Literal := { l with bits := l.bits ++ m.bits }

/-- The two literals can be joined: their flags agree, and flags stay on whole bytes. -/
def Fuses (l m : Literal) : Prop :=
  l.nocase = m.nocase ∧ l.dash = m.dash ∧ (l.IsPlain ∨ l.bits.WholeBytes ∧ m.bits.WholeBytes)

instance (l m : Literal) : Decidable (l.Fuses m) := inferInstanceAs (Decidable (_ ∧ _))

def accepts (l : Literal) (expected actual : UInt8) : Bool :=
  expected == actual
    || l.nocase && Ascii.toLower expected == Ascii.toLower actual
    || l.dash && Ascii.isDash expected && Ascii.isDash actual

def variants (l : Literal) (byte : UInt8) : List UInt8 :=
  byte :: (if l.nocase && Ascii.isLetter byte then [Ascii.swapCase byte] else [])
    ++ (if l.dash && Ascii.isDash byte then [Ascii.swapDash byte] else [])

/-- The literal occurs at `pos` and ends at or before `limit`. Flags compare the stored bytes, as
many as the literal has. -/
def occursAt (l : Literal) (lead : Fin 8) (data : Buffer) (pos limit : Nat) : Bool :=
  decide (pos + l.length ≤ limit ∧ pos + l.length ≤ data.bitSize) &&
    if l.IsPlain then data.holdsBits l.bits pos
    else data.facesBytes l.accepts ((l.stored lead).take (l.length / 8)) pos

def starts (l : Literal) : Starts :=
  let first := Bits.leadingByte (l.bits.take 8)
  let plain := Starts.ofLeadingBits first l.length
  if l.length < 8 then plain
  else { plain with bytes := (l.variants first).foldl ByteSet.insert plain.bytes }

/-- Whole bytes are quoted, other bits are written as a binary number; the flags follow. -/
def text (l : Literal) (lead : Fin 8) : String :=
  (match l.bytes? lead with
    | some bytes => Text.quote bytes
    | none => "0b" ++ l.bits.text)
  ++ (if l.nocase then " nocase" else "") ++ (if l.dash then " dash-underscore" else "")

end Literal

end Sigil
