import Mathlib.Data.List.Forall2
import Mathlib.Tactic.Common
import Sigil.Random

namespace Sigil

variable {σ α β : Type}

def Always (x : StateM σ α) (Q : α → Prop) : Prop := ∀ s, Q (x s).1

namespace Always

variable {x : StateM σ α} {f : α → StateM σ β} {P R : α → Prop} {Q : β → Prop} {a : α}

theorem pure (h : P a) : Always (Pure.pure a : StateM σ α) P := fun _ => h

theorem mono (h : Always x P) (hPR : ∀ a, P a → R a) : Always x R := fun s => hPR _ (h s)

theorem bind (h : Always x P) (hf : ∀ a, P a → Always (f a) Q) : Always (x >>= f) Q := fun s =>
  hf _ (h s) (x s).2

theorem map {g : α → β} (h : Always x fun a => Q (g a)) : Always (g <$> x) Q := fun s => h s

theorem mapM {f : α → StateM σ β} {R : α → β → Prop} (xs : List α)
    (h : ∀ a ∈ xs, Always (f a) (R a)) : Always (xs.mapM f) (List.Forall₂ R xs) := by
  induction xs with
  | nil => exact .pure .nil
  | cons a xs ih =>
    rw [List.mapM_cons]
    refine .bind (h a List.mem_cons_self) fun b hb => ?_
    exact .bind (ih fun c hc => h c (List.mem_cons_of_mem a hc)) fun bs hbs => .pure (.cons hb hbs)

end Always

namespace Random

variable [RandomSource σ]

theorem number_within {lo hi : Nat} (h : lo ≤ hi) :
    Always (number lo hi : StateM σ Nat) fun n => lo ≤ n ∧ n ≤ hi := fun s =>
  RandomSource.number_mem lo hi s h

theorem byte_within {lo hi : UInt8} (h : lo ≤ hi) :
    Always (byte lo hi : StateM σ UInt8) fun b => lo ≤ b ∧ b ≤ hi := fun s =>
  RandomSource.byte_mem lo hi s h

theorem index_lt {n : Nat} (hn : 0 < n) : Always (index n : StateM σ Nat) (· < n) :=
  (number_within (Nat.zero_le (n - 1))).mono fun i hi => by omega

end Random

end Sigil
