import Sigil.Proofs.Counting
import Sigil.Proofs.Matching
import Sigil.Tree.Measure

namespace Sigil

open Bits (extent)

def Derivation.within (A : Set Derivation) (bound : BitRange) : Set Derivation :=
  {d ∈ A | bound.Admits (extent d.yield)}

open Sigil.Derivation (within)

/-! ## All derivations of a layer -/

namespace Derivation

end Derivation

/-- The number of all derivations of a layer, from the numbers of those of its sub-patterns. -/
noncomputable def Kind.total : Kind ℕ∞ → ℕ∞
  | lit l => l.spellings
  | any bits => 2 ^ bits
  | range lo hi => (hi.toNat - lo.toNat + 1 : Nat)
  | anchor _ => 1
  | alt subs => subs.sum
  | seq subs => subs.prod
  | rep sub r => ⨆ m, ∑ k ∈ Finset.range m with r.Allows k, sub ^ k
  | ctx _ sub => sub

namespace Tree

variable {t : Tree Note} {bound : BitRange}

/-- The instances within a bound are what the derivations within it yield. -/
theorem mem_language_within_iff {ν : Type} {t : Tree ν} {w : Bits} :
    w ∈ t.language ∧ bound.Admits (extent w) ↔ ∃ d ∈ within t.derivations bound, d.yield = w := by
  constructor
  · rintro ⟨hw, hadmits⟩
    obtain ⟨d, hd, rfl⟩ := mem_language_iff_derivations.1 hw
    exact ⟨d, ⟨hd, hadmits⟩, rfl⟩
  · rintro ⟨d, ⟨hd, hadmits⟩, rfl⟩
    exact ⟨mem_language_iff_derivations.2 ⟨d, hd, rfl⟩, hadmits⟩

/-- One derivation within the bound leaves one instance within it. -/
theorem existsUnique_of_encard_eq_one (h : (within t.derivations bound).encard = 1) :
    ∃! w, w ∈ t.language ∧ bound.Admits (extent w) := by
  obtain ⟨d, hd⟩ := Set.encard_eq_one.1 h
  refine ⟨d.yield, mem_language_within_iff.2 ⟨d, hd ▸ Set.mem_singleton d, rfl⟩, fun w hw => ?_⟩
  obtain ⟨e, he, rfl⟩ := mem_language_within_iff.1 hw
  rw [hd] at he
  rw [Set.mem_singleton_iff.1 he]

/-- A census up to the longest length in question counts all the derivations within the bound. -/
theorem total_exact {c : Census} {cap : Nat}
    (hc : c.Exact (number Derivation.yield t.derivations) cap) (hcap : cap ≤ inf)
    (hlong : ∀ d ∈ t.derivations, bound.Admits (extent d.yield) → extent d.yield ≤ cap) :
    c.total bound = inf ∨ (c.total bound : ℕ∞) = (within t.derivations bound).encard := by
  have hnear : Near (∑ n ∈ lengths with bound.Admits n, c.tally n : Nat)
      (within t.derivations bound).encard := by
    rw [within, encard_admitted, Nat.cast_sum]
    refine Near.sum fun n hn => ?_
    by_cases hle : n ≤ cap
    · exact hc.near n hle
    · have hnone : number Derivation.yield t.derivations n = 0 := by
        rw [number_eq_zero]
        rintro d hd rfl
        exact hle (hlong d hd (Finset.mem_filter.1 hn).2)
      rw [hc.within.tally_eq_zero (Nat.lt_of_not_le hle), hnone]
      exact Near.refl _
  have htotal := c.total_eq bound fun entry hentry => (hc.within entry hentry).trans hcap
  have hcut : Near (c.total bound) (∑ n ∈ lengths with bound.Admits n, c.tally n : Nat) :=
    Near.of_min_eq (by rw [htotal, Nat.min_assoc, Nat.min_self])
  rcases hcut.trans hnear with heq | ⟨hinf, -⟩
  · exact Or.inr heq
  · exact Or.inl (Nat.le_antisymm (htotal ▸ Nat.min_le_right ..) (Nat.cast_le.1 hinf))

/-- The complexity is `inf`, or the number of derivations within the bound. -/
theorem complexity_exact (hvalid : t.Valid) (hfaithful : t.Faithful) (hflush : t.Flush)
    (hbound : bound.Defined)
    (hlengths : min bound.high t.sample.high < inf ∨ t.Each fun s => s.kind.Representable) :
    t.complexity bound = inf ∨ (t.complexity bound : ℕ∞) = (within t.derivations bound).encard := by
  have hbounds := hfaithful.bounds hvalid
  have hlanguage : ∀ d ∈ t.derivations, d.yield ∈ t.language := fun d hd =>
    mem_language_iff_derivations.2 ⟨d, hd, rfl⟩
  unfold complexity
  split
  case isTrue hnone =>
    -- a derivation within the bound would have both ranges overlap
    refine Or.inr ?_
    rw [Nat.cast_zero, eq_comm, Set.encard_eq_zero, Set.eq_empty_iff_forall_notMem]
    rintro d ⟨hd, hlow, hhigh⟩
    have hmem := hlanguage d hd
    have hoverlap : t.sample.Overlaps bound := ⟨hbounds.defined hmem, hbound,
      (hbounds.low_le_extent hmem).trans hhigh, hlow.trans (hbounds.extent_le_high hmem)⟩
    exact hnone.elim (· hbound) (· hoverlap)
  case isFalse hsome =>
    rw [not_or, not_not, not_not] at hsome
    obtain ⟨v, -, hv⟩ := hbounds.exists_high hsome.2.1
    have hcap : min bound.high t.sample.high ≤ inf :=
      (Nat.min_le_right ..).trans (hv ▸ Nat.min_le_right ..)
    split
    case h_1 c hc =>
      refine total_exact (exact_census hvalid hflush hcap hlengths hc) hcap fun d hd hadmits => ?_
      exact Nat.le_min.2 ⟨hadmits.2, hbounds.extent_le_high (hlanguage d hd)⟩
    case h_2 => exact Or.inl rfl

end Tree

end Sigil
