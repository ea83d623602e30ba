import Sigil.Proofs.Constant

namespace Sigil

def Bounded (L : Language Bool) : Prop := ∃ bound, ∀ w ∈ L, w.length ≤ bound

variable {L M : Language Bool}

namespace Bounded

theorem of_length {n : Nat} (h : ∀ w ∈ L, w.length = n) : Bounded L := ⟨n, fun w hw => (h w hw).le⟩

theorem zero : Bounded 0 := ⟨0, fun w hw => absurd hw (Language.notMem_zero w)⟩

theorem one : Bounded 1 := of_length fun w hw => by rw [(Language.mem_one w).1 hw, List.length_nil]

theorem add (hL : Bounded L) (hM : Bounded M) : Bounded (L + M) := by
  obtain ⟨m, hm⟩ := hL
  obtain ⟨n, hn⟩ := hM
  refine ⟨max m n, ?_⟩
  rintro w (hw | hw)
  · exact (hm w hw).trans (Nat.le_max_left ..)
  · exact (hn w hw).trans (Nat.le_max_right ..)

theorem mul (hL : Bounded L) (hM : Bounded M) : Bounded (L * M) := by
  obtain ⟨m, hm⟩ := hL
  obtain ⟨n, hn⟩ := hM
  refine ⟨m + n, ?_⟩
  intro w hw
  obtain ⟨x, hx, y, hy, rfl⟩ := Language.mem_mul.1 hw
  rw [List.length_append]
  exact Nat.add_le_add (hm x hx) (hn y hy)

theorem length_le_of_mem_pow {bound n : Nat} (hL : ∀ w ∈ L, w.length ≤ bound) {w : Bits}
    (hw : w ∈ L ^ n) : w.length ≤ n * bound := by
  induction n generalizing w with
  | zero =>
    rw [pow_zero, Language.mem_one] at hw
    rw [hw, List.length_nil]
    exact Nat.zero_le _
  | succ n ih =>
    rw [pow_succ, Language.mem_mul] at hw
    obtain ⟨x, hx, y, hy, rfl⟩ := hw
    rw [List.length_append, Nat.succ_mul]
    exact Nat.add_le_add (ih hx) (hL y hy)

theorem rep {r : Repeat} {m : Nat} (hL : Bounded L) (hr : r.max = some m) :
    Bounded (Kind.language (.rep L r)) := by
  obtain ⟨bound, hbound⟩ := hL
  refine ⟨m * bound, ?_⟩
  rintro w ⟨n, hn, hw⟩
  exact (length_le_of_mem_pow hbound hw).trans (Nat.mul_le_mul_right bound (hn.2 m hr))

/-- Repeating nothing leaves the empty string at most. -/
theorem rep_zero (r : Repeat) : Bounded (Kind.language (.rep 0 r)) := by
  refine ⟨0, ?_⟩
  rintro w ⟨n, -, hw⟩
  cases n with
  | zero => rw [(Language.mem_one w).1 hw, List.length_nil]
  | succ n =>
    rw [pow_succ', zero_mul] at hw
    exact absurd hw (Language.notMem_zero w)

end Bounded

/-! ## Censuses without a cap -/

namespace Census

variable {c d : Census}

theorem cons_ne_nil (entry : Nat × Nat) (c : Census) : Census.cons entry c ≠ [] := by
  cases c with
  | nil => simp [Census.cons]
  | cons next rest =>
    rw [Census.cons]
    split <;> simp

end Census

namespace Tree

section

variable {counted c : Census}

end

end Tree

end Sigil
