import Sigil.Proofs.Containment
import Sigil.Proofs.Derivation
import Sigil.Proofs.Pool.Matching

namespace Sigil.Pool

/-- The bits of `a`, cut out of the bytes `06` and `10`, match the first of these in any case. -/
theorem matchIn_nocase_outside_language :
    let p := run [.literal { Literal.ofBytes [97] with nocase := true } 4]
    p.matchIn ⟨0⟩ #[6] .full .anchored = some ⟨0, 8⟩ ∧ Bits.ofByte 6 ∉ p.language ⟨0⟩ := by
  refine ⟨by decide, fun hspells => ?_⟩
  obtain ⟨bytes, haccepts, hbytes⟩ :=
    Literal.Spells.exists_bytes (l := { Literal.ofBytes [97] with nocase := true }) hspells
      (by decide)
  obtain rfl : bytes = [6] := by
    rw [← Bits.toBytes_ofBytes bytes, ← hbytes, show (Bits.ofByte 6).toBytes = [6] by decide]
  cases haccepts with
  | cons hsix _ => exact absurd hsix (by decide)

/-! ## Hits with any matchers -/

def guardedIn (p : Pool) (id : PatternId) (data : Buffer) (region : BitRange) (mode : MatchMode) :
    Guarded (Option Hit) :=
  match p.tree? id with
  | none => .ok none
  | some t => t.guardedIn data region mode

/-- In a pool with a history, whatever matchers its patterns have, all patterns unfold, no guard
fails, and a hit lies in the region and in the buffer. It starts where the region starts unless it
was searched for, and a full match ends where the region or the buffer does. -/
theorem run_matchIn_contained (cs : List Command) (id : PatternId) (data : Buffer)
    (hsize : data.size < 2 ^ 58) (region : BitRange) (mode : MatchMode) :
    let p := run cs
    let limit := min region.high data.bitSize
    (p.contains id = true → (p.tree? id).isSome = true) ∧
      p.guardedIn id data region mode = .ok (p.matchIn id data region mode) ∧
      ∀ hit, p.matchIn id data region mode = some hit →
        region.low ≤ hit.offset ∧ hit.offset + hit.length ≤ limit ∧
          (mode ≠ .search → hit.offset = region.low) ∧
          (mode = .full → hit.offset + hit.length = limit) := by
  intro p limit
  have hp : p.WellFormed := wellFormed_run cs
  have hinf : data.bitSize < inf := Buffer.bitSize_lt_inf hsize
  by_cases hid : p.contains id = true
  · obtain ⟨t, ht, hunfolds⟩ := hp.exists_tree hid
    rw [guardedIn, matchIn, ht]
    exact ⟨fun _ => Option.isSome_some, Tree.guardedIn_eq hunfolds.faithful hinf region mode⟩
  · have htree : p.tree? id = none := by
      rw [Option.eq_none_iff_forall_ne_some]
      intro t ht
      obtain ⟨node, hnode, -⟩ := exists_node_of_tree? ht
      exact hid (contains_of_get? hnode)
    rw [guardedIn, matchIn, htree]
    exact ⟨fun h => absurd h hid, rfl, fun hit hhit => absurd hhit (by simp)⟩

/-- A matcher takes the first byte and then claims to match without end, which is not believed. -/
theorem run_matchIn_contained_endless :
    let p :=
      run [.any 8, .setMatcher ⟨0⟩ (some fun _ pos _ => some ⟨pos, if pos = 0 then 8 else inf⟩),
      .rep ⟨0⟩ (.atLeast 0)]
    p.matchIn ⟨1⟩ #[97, 98] .full .search = some ⟨0, 8⟩ ∧
      p.guardedIn ⟨1⟩ #[97, 98] .full .search = .ok (some ⟨0, 8⟩) ∧
        0 + 8 ≤ min BitRange.full.high 16 := by
  intro p
  have hhit : p.matchIn ⟨1⟩ #[97, 98] .full .search = some ⟨0, 8⟩ := by decide
  obtain ⟨-, hguarded, hcontained⟩ := run_matchIn_contained
    [.any 8, .setMatcher ⟨0⟩ (some fun _ pos _ => some ⟨pos, if pos = 0 then 8 else inf⟩),
      .rep ⟨0⟩ (.atLeast 0)]
    ⟨1⟩ #[97, 98] (by decide) .full .search
  exact ⟨hhit, hhit ▸ hguarded, (hcontained _ hhit).2.1⟩

end Sigil.Pool
