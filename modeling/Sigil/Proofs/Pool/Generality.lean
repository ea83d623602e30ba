import Sigil.Proofs.Generality
import Sigil.Proofs.Pool.Matching

namespace Sigil.Pool

open Relation (ReflTransGen)

variable {p : Pool} {a b id : PatternId} {t : Tree Note}

/-- Each pattern at or under `id` is steady. -/
def Steady (p : Pool) (id : PatternId) : Prop :=
  ∀ n, ReflTransGen p.Embeds id n → ∀ k, p.kind? n = some k → (k.map p.sample).Steady

/-- Between the patterns under `a` and those under `b`, the rule for constants is not misled. -/
def ConstantSafe (p : Pool) (a b : PatternId) : Prop :=
  ∀ m n s t, ReflTransGen p.Embeds a m → ReflTransGen p.Embeds b n → p.tree? m = some s →
    p.tree? n = some t →
    s.ConstantSafe t

theorem WellFormed.sound (h : p.WellFormed) (ht : p.tree? id = some t) (hbare : p.Bare id)
    (hflush : p.Flush id) : t.Sound :=
  have hunfolds := h.unfolds ht
  ⟨hunfolds.valid, hunfolds.faithful, hunfolds.bare hbare, h.tree_flush ht hflush⟩

theorem Unfolds.steady (h : p.Unfolds id t) (hp : p.WellFormed) (hsteady : p.Steady id) :
    t.Steady := by
  apply h.origin.mono
  intro s hs
  obtain ⟨n, hn, htree⟩ := hs
  obtain ⟨k, hk, hrel⟩ := hp.rel_of_tree? htree
  rw [← hrel.map_eq fun m u hu => hu.sample.symm]
  exact hsteady n hn k hk

theorem steady_of_all
    (h : p.nodes.toList.all (fun o => o.all fun node => decide (node.kind.map p.sample).Steady) =
      true)
    (id : PatternId) : p.Steady id := by
  intro n _ k hk
  rw [kind?, Option.map_eq_some_iff] at hk
  obtain ⟨node, hnode, rfl⟩ := hk
  exact of_decide_eq_true (of_all_nodes h hnode)

/-- A steady pattern is safe with all constants that end. -/
theorem WellFormed.constantSafe_of_steady (h : p.WellFormed) (ha : p.contains a = true)
    (hb : p.contains b = true) (hsteady : p.Steady a)
    (hhigh : ∀ n, ReflTransGen p.Embeds b n → (p.sample n).high < inf) : p.ConstantSafe a b := by
  intro m n s t hm hn hs ht bits _ _ _
  obtain ⟨u, hu, hunfolds⟩ := h.exists_tree (h.contains_of_reaches ha hm)
  obtain ⟨v, hv, hunfolds'⟩ := h.exists_tree (h.contains_of_reaches hb hn)
  obtain rfl := Option.some.inj (hs.symm.trans hu)
  obtain rfl := Option.some.inj (ht.symm.trans hv)
  refine ⟨?_, Or.inl (hunfolds.steady h fun n' hn' => hsteady n' (hm.trans hn'))⟩
  rw [hunfolds'.sample]
  exact hhigh n hn

/-- A pattern matches at an offset of the buffer where its tree does. -/
theorem WellFormed.isSome_matchAt (h : p.WellFormed) (hid : p.contains id = true)
    (htree : p.tree? id = some t) (hbare : p.Bare id) (hflush : p.Flush id) {data : Buffer}
    (hinf : data.bitSize < inf) (pos : Nat) :
    (p.matchAt id data pos).isSome = true ↔
      pos ≤ data.bitSize ∧ (t.plainAt data data.bitSize pos).isSome = true := by
  have hlimit : min inf data.bitSize = data.bitSize := Nat.min_eq_right hinf.le
  rw [matchAt, h.matchIn_eq_plainIn hid hbare hflush hinf, plainIn, htree]
  change (t.plainIn data ⟨pos, inf⟩ .anchored).isSome = true ↔ _
  unfold Tree.plainIn BitRange.Defined
  dsimp only
  rw [hlimit]
  split
  case isTrue hout =>
    refine ⟨fun hnone => absurd hnone (by simp), fun hin => ?_⟩
    omega
  case isFalse hin =>
    rw [Tree.plainHit, Option.isSome_map]
    exact (and_iff_right (by omega)).symm

/-- Generality follows matching. -/
theorem run_generalizes_matchAt (cs : List Command) (a b : PatternId)
    (ha : (run cs).contains a = true) (hb : (run cs).contains b = true) (hbare : (run cs).Bare a)
    (hbare' : (run cs).Bare b) (hflush : (run cs).Flush a) (hflush' : (run cs).Flush b)
    (hsafe : (run cs).ConstantSafe a b) (h : (run cs).generalizes a b = true) (data : Buffer)
    (hinf : data.bitSize < inf) (pos : Nat) (hmatch : ((run cs).matchAt b data pos).isSome = true) :
    ((run cs).matchAt a data pos).isSome = true := by
  have hp := wellFormed_run cs
  obtain ⟨t, ht, hunfolds⟩ := hp.exists_tree ha
  obtain ⟨u, hu, hunfolds'⟩ := hp.exists_tree hb
  rw [hp.isSome_matchAt hb hu hbare' hflush' hinf] at hmatch
  rw [hp.isSome_matchAt ha ht hbare hflush hinf]
  refine ⟨hmatch.1, ?_⟩
  rw [generalizes, Bool.or_eq_true, beq_iff_eq] at h
  rcases h with rfl | hgeneral
  · obtain rfl := Option.some.inj (ht.symm.trans hu)
    exact hmatch.2
  · rw [ht, hu] at hgeneral
    have hsafe' : t.Each fun s => u.Each fun v => s.ConstantSafe v := by
      apply hunfolds.origin.mono
      intro s hs
      obtain ⟨m, hm, hs⟩ := hs
      apply hunfolds'.origin.mono
      intro v hv
      obtain ⟨n, hn, hv⟩ := hv
      exact hsafe m n s v hm hn hs hv
    exact Tree.follows_of_generalizesWithin hinf _ ⟨hp.sound ht hbare hflush,
      hp.sound hu hbare' hflush', hsafe'⟩
      hgeneral pos hmatch.1 hmatch.2

/-- A letter and digits after it, where a letter and one digit stand before more digits. -/
theorem run_generalizes_matchAt_digits :
    let p :=
      run [.range 97 122, .range 48 57, .rep ⟨1⟩ (.atLeast 1), .seq [⟨0⟩, ⟨2⟩], .lit [113, 55]]
    p.constant? ⟨4⟩ = some (.ofBytes [113, 55]) ∧
      (p.matchAt ⟨3⟩ #[113, 55, 56, 57] 0).isSome = true := by
  intro p
  have hhigh : ∀ n, ReflTransGen p.Embeds ⟨4⟩ n → (p.sample n).high < inf := by
    intro n hn
    rcases hn.cases_head with rfl | ⟨s, ⟨k, hk, hs⟩, -⟩
    · decide
    · have hlit : p.kind? ⟨4⟩ = some (.lit (.ofBytes [113, 55])) := by decide
      rw [← Option.some.inj (hlit.symm.trans hk)] at hs
      exact absurd hs List.not_mem_nil
  refine ⟨by decide, ?_⟩
  have haligned : p.Aligned := aligned_of_all (by decide)
  exact run_generalizes_matchAt _ ⟨3⟩ ⟨4⟩ (by decide) (by decide) (fun n _ =>
    matcher?_eq_none_of_all (by decide) n)
    (fun n _ => matcher?_eq_none_of_all (by decide) n) (haligned.flush ⟨3⟩) (haligned.flush ⟨4⟩)
    ((wellFormed_run _).constantSafe_of_steady (by decide) (by decide)
      (steady_of_all (by decide) ⟨3⟩) hhigh)
    (by decide) #[113, 55, 56, 57] (by decide) 0 (by decide)

/-- Any number of `ab` and then `a` would match the constant `a` alone, but not where `ab` stands:
the repetition takes it and gives nothing back. -/
theorem generalizes_greedy_repetition :
    let p := run [.lit [97, 98], .rep ⟨0⟩ (.atLeast 0), .lit [97], .seq [⟨1⟩, ⟨2⟩]]
    p.contains ⟨2⟩ = true ∧ p.contains ⟨3⟩ = true ∧ p.Bare ⟨2⟩ ∧ p.Bare ⟨3⟩ ∧
      p.generalizes ⟨3⟩ ⟨2⟩ = true ∧
      (p.matchAt ⟨2⟩ #[97, 98] 0).isSome = true ∧ p.matchAt ⟨3⟩ #[97, 98] 0 = none := by
  intro p
  have hmatcher : ∀ n, p.matcher? n = none := fun n => matcher?_eq_none_of_all (by decide) n
  exact ⟨by decide, by decide, fun n _ => hmatcher n, fun n _ =>
    hmatcher n, by decide, by decide, by decide⟩

/-- The bits of `1` in any case, cut out of the bytes `03` and `10`, are a digit, but match the
first of these. -/
theorem generalizes_digit_inside_bytes :
    let p := run [.range 48 57, .literal { Literal.ofBytes [49] with nocase := true } 4]
    p.generalizes ⟨0⟩ ⟨1⟩ = true ∧ (p.matchAt ⟨1⟩ #[3] 0).isSome = true ∧
      p.matchAt ⟨0⟩ #[3] 0 = none := by
  decide

end Sigil.Pool
