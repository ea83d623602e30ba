import Sigil.Toml.Value

namespace Sigil.Toml

def isScalarChar (c : Char) : Bool :=
  c.isAlphanum || c == '_' || c == '+' || c == '-' || c == '.' || c == ':'

def digitValue (c : Char) : Nat :=
  if c.isDigit then c.toNat - '0'.toNat else c.toLower.toNat - 'a'.toNat + 10

def isBaseDigit (base : Nat) (c : Char) : Bool :=
  (c.isDigit || ('a' ≤ c.toLower && c.toLower ≤ 'f')) && decide (digitValue c < base)

/-- Reads digits of a base. Single underscores may stand between digits. -/
def digits? (base : Nat) (cs : List Char) : Option (List Char) :=
  let digit := isBaseDigit base
  let spaced := cs.zip (cs.drop 1)
  if cs.all (fun c => digit c || c == '_') && (cs.head?.any digit) && (cs.getLast?.any digit)
      && !spaced.contains ('_', '_')
  then some (cs.filter (· != '_')) else none

def numberOf (base : Nat) (cs : List Char) : Nat := cs.foldl (fun n c => base * n + digitValue c) 0

def decimal? (cs : List Char) : Option (List Char) := do
  let ds ← digits? 10 cs
  if ds.head? = some '0' ∧ ds.length ≠ 1 then none
  return ds

def splitSign : List Char → Bool × List Char
  | '-' :: cs => (true, cs)
  | '+' :: cs => (false, cs)
  | cs => (false, cs)

/-- Reads an integer of 64 bits. Hexadecimal, octal and binary ones have no sign. -/
def integer? (cs : List Char) : Option Int := do
  let n : Int ← match cs with
    | '0' :: 'x' :: ds => (digits? 16 ds).map fun ds => (numberOf 16 ds : Int)
    | '0' :: 'o' :: ds => (digits? 8 ds).map fun ds => (numberOf 8 ds : Int)
    | '0' :: 'b' :: ds => (digits? 2 ds).map fun ds => (numberOf 2 ds : Int)
    | _ =>
      let (negative, ds) := splitSign cs
      (decimal? ds).map fun ds => if negative then -(numberOf 10 ds : Int) else numberOf 10 ds
  if -0x8000000000000000 ≤ n ∧ n < 0x8000000000000000 then some n else none

def isExponent : List Char → Bool
  | c :: cs => (c == 'e' || c == 'E') && (digits? 10 (splitSign cs).2).isSome
  | [] => false

/-- A number with a fraction, an exponent or both, or one of the special numbers. -/
def isFloat (cs : List Char) : Bool :=
  let unsigned := (splitSign cs).2
  if unsigned = ['i', 'n', 'f'] ∨ unsigned = ['n', 'a', 'n'] then true
  else
    let whole := unsigned.takeWhile fun c => c.isDigit || c == '_'
    let rest := unsigned.drop whole.length
    (decimal? whole).isSome &&
      match rest with
      | '.' :: rest =>
        let fraction := rest.takeWhile fun c => c.isDigit || c == '_'
        let exponent := rest.drop fraction.length
        (digits? 10 fraction).isSome && (exponent.isEmpty || isExponent exponent)
      | _ => isExponent rest

/-! ## Dates and times -/

/-- Reads exactly `count` digits, and answers their number and what follows. -/
def fixedDigits? (count : Nat) (cs : List Char) : Option (Nat × List Char) :=
  let ds := cs.take count
  if ds.length = count ∧ ds.all (·.isDigit) then some (numberOf 10 ds, cs.drop count) else none

def daysIn (year month : Nat) : Nat :=
  if month = 2 then if year % 4 = 0 ∧ (year % 100 ≠ 0 ∨ year % 400 = 0) then 29 else 28
  else if month = 4 ∨ month = 6 ∨ month = 9 ∨ month = 11 then 30
  else 31

def afterDate? (cs : List Char) : Option (List Char) := do
  let (year, cs) ← fixedDigits? 4 cs
  let '-' :: cs := cs | none
  let (month, cs) ← fixedDigits? 2 cs
  let '-' :: cs := cs | none
  let (day, cs) ← fixedDigits? 2 cs
  if 1 ≤ month ∧ month ≤ 12 ∧ 1 ≤ day ∧ day ≤ daysIn year month then some cs else none

def afterMinutes? (cs : List Char) : Option (List Char) := do
  let (hour, cs) ← fixedDigits? 2 cs
  let ':' :: cs := cs | none
  let (minute, cs) ← fixedDigits? 2 cs
  if hour ≤ 23 ∧ minute ≤ 59 then some cs else none

/-- What follows a time of day, which may have a fraction of a second. -/
def afterTime? (cs : List Char) : Option (List Char) := do
  let ':' :: cs ← afterMinutes? cs | none
  let (second, cs) ← fixedDigits? 2 cs
  if 60 < second then none
  match cs with
  | '.' :: rest =>
    let fraction := rest.takeWhile (·.isDigit)
    if fraction.isEmpty then none else some (rest.drop fraction.length)
  | _ => some cs

def isZone : List Char → Bool
  | ['Z'] | ['z'] => true
  | '+' :: cs | '-' :: cs => afterMinutes? cs == some []
  | _ => false

def isDateTime (cs : List Char) : Bool :=
  match afterDate? cs with
  | some [] => true
  | some (c :: rest) =>
    (c == 'T' || c == 't' || c == ' ') &&
      (match afterTime? rest with
        | some zone => zone.isEmpty || isZone zone
        | none => false)
  | none => afterTime? cs == some []

def scalar? (cs : List Char) : Option Value :=
  if cs = "true".toList then some (.boolean true)
  else if cs = "false".toList then some (.boolean false)
  else match integer? cs with
    | some n => some (.integer n)
    | none =>
      if isFloat cs then some (.float (String.ofList cs))
      else if isDateTime cs then some (.dateTime (String.ofList cs))
      else none

end Sigil.Toml
