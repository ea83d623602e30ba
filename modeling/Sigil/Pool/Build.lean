import Sigil.Pool.Refresh

namespace Sigil

namespace Edit

/-- Adds a node of the given kind, whose sub-patterns have to be live. -/
def insert (k : Kind PatternId) (lead : Fin 8 := 0) : Edit PatternId := fun p =>
  match k.subs.find? (fun sub => !p.contains sub) with
  | some sub => .error (.unknownPattern sub) p
  | none => let (id, q) := p.add k lead; .ok id q

/-- A literal needs at least one bit, and flags need whole bytes. It may be cut out of other bytes,
of which it keeps the first one with the `lead` bits before it unused. -/
def literal (l : Literal) (lead : Fin 8 := 0) : Edit PatternId := do
  if l.IsEmpty then throw .emptyLiteral
  if ¬ l.IsPlain ∧ l.bytes? lead = none then throw .unalignedFlags
  insert (.lit l) lead

def lit (bytes : List UInt8) : Edit PatternId := literal (.ofBytes bytes)

def litNocase (bytes : List UInt8) : Edit PatternId :=
  literal { Literal.ofBytes bytes with nocase := true }

def any (bits : Nat) : Edit PatternId := do
  if bits = 0 then throw .emptyAny
  insert (.any bits)

def range (lo hi : UInt8) : Edit PatternId := do
  if hi < lo then throw (.invalidRange lo hi)
  insert (.range lo hi)

def anchor (a : Anchor) : Edit PatternId := insert (.anchor a)

def alt (subs : List PatternId) : Edit PatternId := insert (.alt subs)

def seq (subs : List PatternId) : Edit PatternId := insert (.seq subs)

def rep (sub : PatternId) (counts : Repeat) : Edit PatternId := do
  if let some max := counts.max then
    if max < counts.min then throw (.invalidRepetition counts.min max)
  insert (.rep sub counts)

/-- Tags a pattern with a domain. A context of that domain stays as it is, and if one embeds the
pattern already, it is taken. -/
def ctx (domain : Domain) (sub : PatternId) : Edit PatternId := do
  let node ← Edit.node sub
  if let .ctx d _ := node.kind then
    if d = domain then return sub
  let p ← get
  match node.supers.find? (fun s => (p.get? s).any (·.kind == .ctx domain sub)) with
  | some existing => return existing
  | none => insert (.ctx domain sub)

def startingWith (bytes : List UInt8) : Edit PatternId := do
  let start ← anchor .bufferStart
  let body ← lit bytes
  seq [start, body]

def endingWith (bytes : List UInt8) : Edit PatternId := do
  let body ← lit bytes
  let stop ← anchor .bufferEnd
  seq [body, stop]

def equalTo (bytes : List UInt8) : Edit PatternId := do
  let start ← anchor .bufferStart
  let body ← lit bytes
  let stop ← anchor .bufferEnd
  seq [start, body, stop]

/-! ## Changing patterns -/

/-- Appends a sub-pattern to an alternation or a sequence that is not under it. -/
def pushSub (multi sub : PatternId) : Edit Unit := do
  let _ ← Edit.node sub
  let node ← Edit.node multi
  unless node.kind.isMulti do throw (.notMulti multi)
  if (← get).reaches sub multi then throw (.cycle multi sub)
  modify fun p =>
    let extended := p.modify multi fun n => { n with kind := n.kind.push sub }
    (extended.link sub multi).refresh multi

def annotate (id : PatternId) (f : Node → Node) : Edit Unit := do
  let _ ← Edit.node id
  modify (·.modify id f)

def describe (id : PatternId) (f : Description → Description) : Edit Unit :=
  annotate id fun n => { n with description := f n.description }

def setName (id : PatternId) (name : String) : Edit Unit :=
  describe id ({ · with name := some name })

def setDoc (id : PatternId) (doc : String) : Edit Unit := describe id ({ · with doc := some doc })

def setFormat (id : PatternId) (format : DataFormat) : Edit Unit :=
  describe id ({ · with format := some format })

def setUnit (id : PatternId) (unit : String) : Edit Unit :=
  describe id ({ · with unit := some unit })

/-- Sets or removes the matcher that takes the place of generic matching. -/
def setMatcher (id : PatternId) (matcher : Option Matcher) : Edit Unit :=
  annotate id ({ · with matcher := matcher })

end Edit

end Sigil
