import Sigil.ByteSet
import Sigil.Text.Escaped

namespace Sigil.Text

/-- What a position of a byte string holds. -/
inductive Piece where
  | char (c : Char)
  /-- A byte that is no part of a well-formed sequence. -/
  | stray (byte : UInt8)
deriving DecidableEq

def continuation? (byte : UInt8) : Option Nat :=
  if 0x80 ≤ byte ∧ byte ≤ 0xBF then some (byte.toNat - 0x80) else none

/-- The character with the given code, if it takes no fewer bytes than `least` codes suggest. -/
def scalar? (least code : Nat) : Option Char :=
  if least ≤ code ∧ code.isValidChar then some (Char.ofNat code) else none

/-- The character that the bytes begin with, and the number of bytes that it takes. -/
def leadingChar? : List UInt8 → Option (Char × Nat)
  | [] => none
  | b₀ :: rest =>
    if b₀ < 0x80 then some (Char.ofNat b₀.toNat, 1)
    else if b₀ < 0xC0 then none
    else if b₀ < 0xE0 then do
      let c₁ ← rest[0]? >>= continuation?
      return (← scalar? 0x80 (64 * (b₀.toNat - 0xC0) + c₁), 2)
    else if b₀ < 0xF0 then do
      let c₁ ← rest[0]? >>= continuation?
      let c₂ ← rest[1]? >>= continuation?
      return (← scalar? 0x800 (64 * (64 * (b₀.toNat - 0xE0) + c₁) + c₂), 3)
    else if b₀ < 0xF8 then do
      let c₁ ← rest[0]? >>= continuation?
      let c₂ ← rest[1]? >>= continuation?
      let c₃ ← rest[2]? >>= continuation?
      return (← scalar? 0x10000 (64 * (64 * (64 * (b₀.toNat - 0xF0) + c₁) + c₂) + c₃), 4)
    else none

def readPieces : (count : Nat) → List UInt8 → List Piece
  | 0, _ => []
  | _ + 1, [] => []
  | count + 1, byte :: rest =>
    match leadingChar? (byte :: rest) with
    | some (c, width) => .char c :: readPieces count (rest.drop (width - 1))
    | none => .stray byte :: readPieces count rest

/-- All the pieces of a byte string; there are no more of them than bytes. -/
def pieces (bytes : List UInt8) : List Piece := readPieces bytes.length bytes

def hexDigits (n : Nat) : String := String.ofList (Nat.toDigits 16 n)

def escapeByte (byte : UInt8) : String := "\\x" ++ ByteSet.hexByte byte

/-- The written form of a character. Only NUL, the common blanks, quotes and the backslash have
short escapes. -/
def writeChar (c : Char) : String :=
  if c = '\x00' then "\\0"
  else if c = '\t' then "\\t"
  else if c = '\n' then "\\n"
  else if c = '\r' then "\\r"
  else if c = '"' ∨ c = '\'' ∨ c = '\\' then String.ofList ['\\', c]
  else if c.toNat < 0x20 ∨ c.toNat = 0x7F then escapeByte (UInt8.ofNat c.toNat)
  else if c.toNat < 0x7F then c.toString
  else if isEscaped c then "\\u\x7b" ++ hexDigits c.toNat ++ "\x7d"
  else c.toString

def Piece.write : Piece → String
  | .char c => writeChar c
  | .stray byte => escapeByte byte

def quote (bytes : List UInt8) : String :=
  "\"" ++ String.join ((pieces bytes).map Piece.write) ++ "\""

end Sigil.Text
