import Sigil.Toml.Scalar

namespace Sigil.Toml

abbrev Reader := StateT (List Char) Option

namespace Reader

def next : Reader Char
  | [] => none
  | c :: rest => some (c, rest)

def peek : Reader (Option Char) := return (← get).head?

def takeWhile (p : Char → Bool) : Reader (List Char) :=
  modifyGet fun cs => (cs.takeWhile p, cs.dropWhile p)

/-- Skips the given characters if they come next, and tells whether they did. -/
def skip (expected : List Char) : Reader Bool := fun cs =>
  if expected.isPrefixOf cs then some (true, cs.drop expected.length) else some (false, cs)

def expect (expected : List Char) : Reader Unit := do
  unless ← skip expected do failure

/-! ## Blanks and comments -/

def isBlank (c : Char) : Bool := c == ' ' || c == '\t'

def isText (c : Char) : Bool := c == '\t' || (0x20 ≤ c.toNat && c.toNat != 0x7F)

def blanks : Reader Unit := do let _ ← takeWhile isBlank

def newline : Reader Bool := do if ← skip ['\n'] then return true else skip ['\r', '\n']

def comment : Reader Unit := do
  if (← peek) = some '#' then let _ ← takeWhile isText

def lineEnd : Reader Unit := do
  blanks
  comment
  if (← get).isEmpty then return
  unless ← newline do failure

/-- Blanks, comments and ends of lines between the parts of an array. -/
def filler : (fuel : Nat) → Reader Unit
  | 0 => return
  | fuel + 1 => do
    blanks
    comment
    if ← newline then filler fuel

def skipFiller : Reader Unit := do filler ((← get).length + 1)

/-! ## Strings -/

def codePoint (count : Nat) : Reader Char := do
  let cs ← get
  let ds := cs.take count
  set (cs.drop count)
  let code := numberOf 16 ds
  if ds.length = count ∧ ds.all (isBaseDigit 16) ∧ code.isValidChar then return Char.ofNat code
  else failure

def escaped : Reader Char := do
  match ← next with
  | 'b' => return '\x08'
  | 't' => return '\t'
  | 'n' => return '\n'
  | 'f' => return '\x0c'
  | 'r' => return '\r'
  | '"' => return '"'
  | '\\' => return '\\'
  | 'u' => codePoint 4
  | 'U' => codePoint 8
  | _ => failure

def basicRest : (fuel : Nat) → (reversed : List Char) → Reader String
  | 0, _ => failure
  | fuel + 1, reversed => do
    match ← next with
    | '"' => return String.ofList reversed.reverse
    | '\\' => do basicRest fuel ((← escaped) :: reversed)
    | c => if isText c then basicRest fuel (c :: reversed) else failure

def literalRest : Reader String := do
  let cs ← takeWhile fun c => isText c && c != '\''
  expect ['\'']
  return String.ofList cs

/-- Up to two quotes right before the three that close a string belong to it. -/
def closing (quote : Char) : Reader (Option (List Char)) := fun cs =>
  let quotes := (cs.takeWhile (· == quote)).length
  if quotes < 3 then some (none, cs)
  else
    let kept := min quotes 5 - 3
    some (some (List.replicate kept quote), cs.drop (kept + 3))

/-- A backslash at the end of a line takes all blanks and ends of lines after it. -/
def continuation : Reader Bool := fun cs =>
  match cs.dropWhile isBlank with
  | '\n' :: rest | '\r' :: '\n' :: rest =>
    some (true, rest.dropWhile fun c => isBlank c || c == '\n' || c == '\r')
  | _ => some (false, cs)

/-- The rest of a string in three quotes, double ones with escapes or single ones without. -/
def multilineRest (quote : Char) : (fuel : Nat) → (reversed : List Char) → Reader String
  | 0, _ => failure
  | fuel + 1, reversed => do
    match ← closing quote with
    | some kept => return String.ofList (reversed.reverse ++ kept)
    | none =>
      if ← newline then multilineRest quote fuel ('\n' :: reversed)
      else
        let c ← next
        if c = '\\' ∧ quote = '"' then
          if ← continuation then multilineRest quote fuel reversed
          else multilineRest quote fuel ((← escaped) :: reversed)
        else if isText c then multilineRest quote fuel (c :: reversed)
        else failure

/-- A string in three quotes, without an end of line right after the first three. -/
def multiline (quote : Char) : Reader String := do
  let _ ← newline
  multilineRest quote ((← get).length + 1) []

def basicString : Reader String := do
  expect ['"']
  basicRest ((← get).length + 1) []

def literalString : Reader String := do
  expect ['\'']
  literalRest

/-! ## Keys -/

def isBareKeyChar (c : Char) : Bool := c.isAlphanum || c == '_' || c == '-'

def simpleKey : Reader String := do
  match ← peek with
  | some '"' => basicString
  | some '\'' => literalString
  | _ =>
    let cs ← takeWhile isBareKeyChar
    if cs.isEmpty then failure else return String.ofList cs

/-- Keys with dots between them: those before the last one, and the last one. -/
def dottedKey : (fuel : Nat) → (reversed : List String) → Reader (List String × String)
  | 0, _ => failure
  | fuel + 1, reversed => do
    blanks
    let key ← simpleKey
    blanks
    if ← skip ['.'] then dottedKey fuel (key :: reversed)
    else return (reversed.reverse, key)

def keyPath : Reader (List String × String) := do dottedKey ((← get).length + 1) []

/-! ## Values -/

def scalar : Reader Value := do
  let cs ← takeWhile isScalarChar
  let rest ← get
  let startsTime := afterDate? cs == some [] && rest.head? == some ' '
    && (fixedDigits? 2 (rest.drop 1)).isSome
  let time ← if startsTime then do let _ ← next; takeWhile isScalarChar else pure []
  match scalar? (if startsTime then cs ++ ' ' :: time else cs) with
  | some v => return v
  | none => failure

def arrayRest (element : Reader Value) : (fuel : Nat) → (reversed : List Value) → Reader Value
  | 0, _ => failure
  | fuel + 1, reversed => do
    skipFiller
    if ← skip [']'] then return .array reversed.reverse
    let v ← element
    skipFiller
    if ← skip [','] then arrayRest element fuel (v :: reversed)
    else
      expect [']']
      return .array (v :: reversed).reverse

def assignment (element : Reader Value) : Reader (Entries → Option Entries) := do
  let (path, key) ← keyPath
  expect ['=']
  blanks
  let v ← element
  return (·.assign path key v)

def inlineRest (element : Reader Value) : (fuel : Nat) → Entries → Reader Value
  | 0, _ => failure
  | fuel + 1, entries => do
    let assign ← assignment element
    let entries ← assign entries
    blanks
    if ← skip [','] then inlineRest element fuel entries
    else
      expect ['\x7d']
      return .table (completeEntries entries)

def value : (depth : Nat) → Reader Value
  | 0 => failure
  | depth + 1 => do
    if ← skip ['"', '"', '"'] then return .string (← multiline '"')
    else if ← skip ['\'', '\'', '\''] then return .string (← multiline '\'')
    else match ← peek with
      | some '"' => return .string (← basicString)
      | some '\'' => return .string (← literalString)
      | some '[' => do
        let _ ← next
        arrayRest (value depth) ((← get).length + 1) []
      | some '\x7b' => do
        let _ ← next
        blanks
        if ← skip ['\x7d'] then return .table []
        inlineRest (value depth) ((← get).length + 1) []
      | _ => scalar

def maxDepth : Nat := 80

/-! ## Lines -/

/-- The document so far, and the path of the table that keys are put into. -/
structure Progress where
  entries : Entries := []
  table : List String := []

def line (p : Progress) : Reader Progress := do
  blanks
  if ← skip ['[', '['] then
    let (path, key) ← keyPath
    expect [']', ']']
    return { entries := ← p.entries.appendTable path key, table := path ++ [key] }
  else if ← skip ['['] then
    let (path, key) ← keyPath
    expect [']']
    return { entries := ← p.entries.defineTable path key, table := path ++ [key] }
  else
    match ← peek with
    | none | some '#' | some '\n' | some '\r' => return p
    | _ =>
      let assign ← assignment (value maxDepth)
      return { p with entries := ← p.entries.atTable p.table assign }

def allLines : (fuel : Nat) → Progress → Reader Entries
  | 0, p => return p.entries
  | fuel + 1, p => do
    if (← get).isEmpty then return p.entries
    let p ← line p
    lineEnd
    allLines fuel p

end Reader

/-- The entries of a document, unless the text is none. A mark of the byte order at its beginning
does not count. -/
def parse? (text : String) : Option (List (String × Value)) := do
  let cs := text.toList
  let cs := if cs.head? = some '\uFEFF' then cs.drop 1 else cs
  let (entries, _) ← (Reader.allLines (cs.length + 1) {}).run cs
  return completeEntries entries

end Sigil.Toml
