namespace Sigil.Ascii

def isDigit (b : UInt8) : Bool := 0x30 ≤ b && b ≤ 0x39
def isLower (b : UInt8) : Bool := 0x61 ≤ b && b ≤ 0x7A
def isUpper (b : UInt8) : Bool := 0x41 ≤ b && b ≤ 0x5A
def isLetter (b : UInt8) : Bool := isLower b || isUpper b
def isHexDigit (b : UInt8) : Bool :=
  isDigit b || (0x61 ≤ b && b ≤ 0x66) || (0x41 ≤ b && b ≤ 0x46)

def isWord (b : UInt8) : Bool := isLetter b || isDigit b || b == 0x5F

def isIdentifierStart (b : UInt8) : Bool := isLetter b || b == 0x5F

def isDash (b : UInt8) : Bool := b == 0x2D || b == 0x5F

def toLower (b : UInt8) : UInt8 := if isUpper b then b + 0x20 else b
def toUpper (b : UInt8) : UInt8 := if isLower b then b - 0x20 else b

def swapCase (b : UInt8) : UInt8 := if isLower b then toUpper b else toLower b

def swapDash (b : UInt8) : UInt8 := if b == 0x2D then 0x5F else if b == 0x5F then 0x2D else b

end Sigil.Ascii
