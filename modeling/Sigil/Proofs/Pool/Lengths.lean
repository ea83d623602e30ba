import Mathlib
import Sigil.Proofs.Pool.Matching

namespace Sigil

namespace BitRange.Bounds

open Bits (extent)

variable {r : BitRange} {L : Language Bool}

theorem defined_iff (h : r.Bounds L) : r.Defined ↔ ∃ w, w ∈ L := by
  constructor
  · intro hr
    obtain ⟨u, hu, -⟩ := h.exists_low hr
    exact ⟨u, hu⟩
  · rintro ⟨w, hw⟩
    exact h.defined hw

theorem eq_undefined (h : r.Bounds L) (hr : ¬ r.Defined) : r = undefined := by
  obtain _ | ⟨hu, -, -⟩ := id h
  · rfl
  · exact absurd (h.defined hu) hr

theorem low_eq_minimum (h : r.Bounds L) (hr : r.Defined) :
    ∃ n, IsLeast (List.length '' L) n ∧ r.low = min n inf := by
  obtain ⟨u, hu, hlow⟩ := h.exists_low hr
  have hleast : IsLeast (List.length '' L) (sInf (List.length '' L)) :=
    ⟨Nat.sInf_mem ⟨_, u, hu, rfl⟩, fun n hn => Nat.sInf_le hn⟩
  obtain ⟨x, hx, hlength⟩ := hleast.1
  have hle : r.low ≤ extent x := h.low_le_extent hx
  have hge : sInf (List.length '' L) ≤ u.length := hleast.2 ⟨u, hu, rfl⟩
  refine ⟨_, hleast, ?_⟩
  unfold extent at hle hlow
  omega

theorem high_eq_supremum (h : r.Bounds L) (hr : r.Defined) :
    (r.high : ℕ∞) = min (⨆ w ∈ L, (w.length : ℕ∞)) inf := by
  obtain ⟨v, hv, hhigh⟩ := h.exists_high hr
  apply le_antisymm
  · rw [← hhigh, extent, Nat.mono_cast.map_min]
    exact min_le_min_right _ (le_iSup₂ (f := fun (w : Bits) (_ : w ∈ L) => (w.length : ℕ∞)) v hv)
  · rcases Nat.lt_or_ge r.high inf with hlt | hge
    · -- below `inf`, no length is cut
      apply min_le_of_left_le
      apply iSup₂_le
      intro w hw
      have hle := h.extent_le_high hw
      unfold extent at hle
      exact Nat.cast_le.2 (by omega)
    · exact min_le_of_right_le (Nat.cast_le.2 hge)

end BitRange.Bounds

namespace Pool

variable {p : Pool} {id : PatternId}

theorem WellFormed.bounds_sample (h : p.WellFormed) (hid : p.contains id = true) :
    (p.sample id).Bounds (p.language id) := by
  obtain ⟨t, ht, hunfolds⟩ := h.exists_tree hid
  rw [language_eq ht, ← hunfolds.sample]
  exact hunfolds.faithful.bounds hunfolds.valid

/-- In every pool with a history, the range of lengths of a live pattern is undefined if and only if
the pattern has no instance. Otherwise it goes from the minimum to the supremum of the lengths of
the instances, both cut at `inf`, and there are instances at both of its ends. -/
theorem run_sample_tight (cs : List Command) (id : PatternId) (hid : (run cs).contains id = true) :
    let range := (run cs).sample id
    let instances := (run cs).language id
    ((run cs).tree? id).isSome = true ∧
      (¬ range.Defined ↔ ¬ ∃ w, w ∈ instances) ∧
      (¬ range.Defined → range = .undefined) ∧
      (range.Defined →
        (∃ n, IsLeast (List.length '' instances) n ∧ range.low = min n inf) ∧
          (range.high : ℕ∞) = min (⨆ w ∈ instances, (w.length : ℕ∞)) inf ∧
          (∃ u ∈ instances, Bits.extent u = range.low) ∧ ∃ v ∈ instances, Bits.extent v =
            range.high) := by
  intro range instances
  have hbounds : range.Bounds instances := (wellFormed_run cs).bounds_sample hid
  obtain ⟨t, ht, -⟩ := (wellFormed_run cs).exists_tree hid
  refine ⟨by rw [ht, Option.isSome_some], not_congr hbounds.defined_iff, hbounds.eq_undefined, ?_⟩
  intro hdefined
  exact ⟨hbounds.low_eq_minimum hdefined, hbounds.high_eq_supremum hdefined,
    hbounds.exists_low hdefined, hbounds.exists_high hdefined⟩

/-- Repetitions of a pattern without instances and of an anchor, and a sum and a product that reach
`inf`. -/
theorem run_sample_tight_extremes :
    let p :=
      run [.alt [], .rep ⟨0⟩ (.atLeast 0), .rep ⟨0⟩ (.atLeast 1), .anchor .lineStart,
        .rep ⟨3⟩ (.atLeast 0), .any (2 ^ 63), .rep ⟨5⟩ ⟨1, some 2⟩, .seq [⟨5⟩, ⟨5⟩, ⟨5⟩]]
    (∃ w, w ∈ p.language ⟨1⟩) ∧ (¬ ∃ w, w ∈ p.language ⟨2⟩) ∧
      min (⨆ w ∈ p.language ⟨4⟩, (w.length : ℕ∞)) inf = 0 ∧
      (∃ n, IsLeast (List.length '' p.language ⟨6⟩) n ∧ 2 ^ 63 = min n inf) ∧
      min (⨆ w ∈ p.language ⟨6⟩, (w.length : ℕ∞)) inf = (inf : ℕ∞) ∧
      ∃ n, IsLeast (List.length '' p.language ⟨7⟩) n ∧ inf = min n inf := by
  intro p
  have h1 : p.sample ⟨1⟩ = ⟨0, 0⟩ := by decide
  have h2 : p.sample ⟨2⟩ = .undefined := by decide
  have h4 : p.sample ⟨4⟩ = ⟨0, 0⟩ := by decide
  have h6 : p.sample ⟨6⟩ = ⟨2 ^ 63, inf⟩ := by decide
  have h7 : p.sample ⟨7⟩ = ⟨inf, inf⟩ := by decide
  obtain ⟨-, hzero, -⟩ := run_sample_tight _ ⟨1⟩ (show p.contains ⟨1⟩ = true by decide)
  obtain ⟨-, hnever, -⟩ := run_sample_tight _ ⟨2⟩ (show p.contains ⟨2⟩ = true by decide)
  obtain ⟨-, -, -, hanchor⟩ := run_sample_tight _ ⟨4⟩ (show p.contains ⟨4⟩ = true by decide)
  obtain ⟨-, -, -, hproduct⟩ := run_sample_tight _ ⟨6⟩ (show p.contains ⟨6⟩ = true by decide)
  obtain ⟨-, -, -, hsum⟩ := run_sample_tight _ ⟨7⟩ (show p.contains ⟨7⟩ = true by decide)
  change ¬ (p.sample ⟨1⟩).Defined ↔ _ at hzero
  change ¬ (p.sample ⟨2⟩).Defined ↔ _ at hnever
  rw [h1, not_iff_not] at hzero
  rw [h2] at hnever
  refine ⟨hzero.1 (by decide), hnever.1 (by decide), ?_, ?_, ?_, ?_⟩
  · obtain ⟨-, hhigh, -⟩ := hanchor (show (p.sample ⟨4⟩).Defined by rw [h4]; decide)
    exact hhigh.symm.trans (congrArg (fun r => (r.high : ℕ∞)) h4)
  · obtain ⟨n, hn, hlow⟩ := (hproduct (show (p.sample ⟨6⟩).Defined by rw [h6]; decide)).1
    exact ⟨n, hn, (congrArg BitRange.low h6).symm.trans hlow⟩
  · obtain ⟨-, hhigh, -⟩ := hproduct (show (p.sample ⟨6⟩).Defined by rw [h6]; decide)
    exact hhigh.symm.trans (congrArg (fun r => (r.high : ℕ∞)) h6)
  · obtain ⟨n, hn, hlow⟩ := (hsum (show (p.sample ⟨7⟩).Defined by rw [h7]; decide)).1
    exact ⟨n, hn, (congrArg BitRange.low h7).symm.trans hlow⟩

end Pool

end Sigil
