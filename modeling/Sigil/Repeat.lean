namespace Sigil

/-- How often a repetition applies its sub-pattern; without `max` there is no upper bound. -/
structure Repeat where
  min : Nat
  max : Option Nat
deriving DecidableEq

namespace Repeat

def exactly (n : Nat) : Repeat := ⟨n, some n⟩

def atLeast (n : Nat) : Repeat := ⟨n, none⟩

def optional : Repeat := ⟨0, some 1⟩

def IsFixed (r : Repeat) : Prop := r.max = some r.min

def AtMost (r : Repeat) (n : Nat) : Prop := ∀ m ∈ r.max, n ≤ m

def Allows (r : Repeat) (n : Nat) : Prop := r.min ≤ n ∧ r.AtMost n

instance (r : Repeat) : Decidable r.IsFixed := inferInstanceAs (Decidable (_ = _))

instance (r : Repeat) (n : Nat) : Decidable (r.AtMost n) :=
  match h : r.max with
  | none => isTrue (by simp [AtMost, h])
  | some m => decidable_of_iff (n ≤ m) (by simp [AtMost, h])

instance (r : Repeat) (n : Nat) : Decidable (r.Allows n) := inferInstanceAs (Decidable (_ ∧ _))

/-- Every count allowed by `s` is allowed by `r`, told from the bounds. -/
def covers (r s : Repeat) : Bool :=
  decide (r.min ≤ s.min) &&
    match r.max, s.max with
    | none, _ => true
    | some _, none => false
    | some a, some b => decide (b ≤ a)

/-- The counts in braces: one number if they are fixed, an open end if they are unbounded. -/
def text (r : Repeat) : String :=
  match r.max with
  | some m => if m = r.min then s!"\x7b{m}\x7d" else s!"\x7b{r.min},{m}\x7d"
  | none => s!"\x7b{r.min},\x7d"

end Repeat

end Sigil
