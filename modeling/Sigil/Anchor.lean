import Sigil.Ascii
import Sigil.Buffer

namespace Sigil

inductive Anchor where
  | bufferStart
  | bufferEnd
  | lineStart
  | lineEnd
  | wordStart
  | wordEnd
deriving DecidableEq

namespace Anchor

def all : List Anchor := [bufferStart, bufferEnd, lineStart, lineEnd, wordStart, wordEnd]

def name : Anchor → String
  | bufferStart => "bob"
  | bufferEnd => "eob"
  | lineStart => "bol"
  | lineEnd => "eol"
  | wordStart => "bow"
  | wordEnd => "eow"

def ofName? (s : String) : Option Anchor := all.find? (·.name == s)

def before? (data : Buffer) (pos : Nat) : Option UInt8 :=
  if pos / 8 = 0 then none else data[pos / 8 - 1]?

def after? (data : Buffer) (pos : Nat) : Option UInt8 := data[pos / 8]?

def holds (a : Anchor) (data : Buffer) (pos : Nat) : Bool :=
  let onBoundary := pos % 8 == 0 && decide (pos ≤ data.bitSize)
  match a with
  | bufferStart => pos == 0
  | bufferEnd => pos == data.bitSize
  | lineStart => onBoundary && (pos == 0 || before? data pos == some 0x0A)
  | lineEnd => onBoundary && (pos == data.bitSize || after? data pos == some 0x0A)
  | wordStart =>
    onBoundary && (after? data pos).any Ascii.isWord && !(before? data pos).any Ascii.isWord
  | wordEnd =>
    onBoundary && (before? data pos).any Ascii.isWord && !(after? data pos).any Ascii.isWord

end Anchor

end Sigil
