import Sigil.Anchor
import Sigil.Domain
import Sigil.Literal
import Sigil.Repeat

namespace Sigil

/-- One layer of a pattern over sub-patterns in `α`. -/
inductive Kind (α : Type) where
  /-- An exact string of bits. -/
  | lit (literal : Literal)
  /-- Any string of that many bits. -/
  | any (bits : Nat)
  /-- One byte from `lo` to `hi`. -/
  | range (lo hi : UInt8)
  /-- A condition on the position, without any bits. -/
  | anchor (anchor : Anchor)
  /-- The first sub-pattern that matches. -/
  | alt (subs : List α)
  /-- All the sub-patterns in order. -/
  | seq (subs : List α)
  /-- The sub-pattern several times over. -/
  | rep (sub : α) (counts : Repeat)
  /-- The sub-pattern, tagged with what it describes. -/
  | ctx (domain : Domain) (sub : α)
deriving DecidableEq

namespace Kind

variable {α β : Type}

def subs : Kind α → List α
  | alt subs | seq subs => subs
  | rep sub _ | ctx _ sub => [sub]
  | _ => []

def map (f : α → β) : Kind α → Kind β
  | lit l => lit l
  | any n => any n
  | range lo hi => range lo hi
  | anchor a => anchor a
  | alt subs => alt (subs.map f)
  | seq subs => seq (subs.map f)
  | rep sub r => rep (f sub) r
  | ctx d sub => ctx d (f sub)

def traverse {m : Type → Type} [Monad m] (f : α → m β) : Kind α → m (Kind β)
  | lit l => return lit l
  | any n => return any n
  | range lo hi => return range lo hi
  | anchor a => return anchor a
  | alt subs => return alt (← subs.mapM f)
  | seq subs => return seq (← subs.mapM f)
  | rep sub r => return rep (← f sub) r
  | ctx d sub => return ctx d (← f sub)

def isTerminal : Kind α → Bool
  | lit _ | any _ | range .. | anchor _ => true
  | _ => false

def isMulti : Kind α → Bool
  | alt _ | seq _ => true
  | _ => false

/-- Appends a sub-pattern where there is place for any number of them. -/
def push (sub : α) : Kind α → Kind α
  | alt subs => alt (subs ++ [sub])
  | seq subs => seq (subs ++ [sub])
  | k => k

def hexByte (b : UInt8) : String := "0x" ++ ByteSet.hexByte b

/-- Names the kind and all of it but its sub-patterns. A literal is stored after `lead` unused
bits. -/
def text (lead : Fin 8) : Kind α → String
  | lit l => "lit " ++ l.text lead
  | any n => s!"any {n} bits"
  | range lo hi => s!"range {hexByte lo}-{hexByte hi}"
  | anchor a => a.name
  | alt _ => "alt"
  | seq _ => "seq"
  | rep _ r => "rep " ++ r.text
  | ctx d _ => "ctx " ++ d.name

@[simp] theorem subs_map (f : α → β) (k : Kind α) : (k.map f).subs = k.subs.map f := by
  cases k <;> rfl

end Kind

end Sigil
