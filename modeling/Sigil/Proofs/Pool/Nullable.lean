import Sigil.Proofs.Nullable
import Sigil.Proofs.Pool.Coherence
import Sigil.Proofs.Pool.Matching

namespace Sigil.Pool

open Relation (ReflTransGen)

variable {p : Pool} {id : PatternId} {t : Tree Note}

/-- No pattern at or under `id` is an anchor. -/
def Unanchored (p : Pool) (id : PatternId) : Prop :=
  ∀ n, ReflTransGen p.Embeds id n → ∀ a, p.kind? n ≠ some (.anchor a)

theorem WellFormed.unanchored (h : p.WellFormed) (ht : p.tree? id = some t)
    (hanchors : p.Unanchored id) : t.Unanchored := by
  apply (h.unfolds ht).origin.mono
  rintro s ⟨n, hn, hs⟩ a hanchor
  obtain ⟨k, hk, hrel⟩ := h.rel_of_tree? hs
  rw [hanchor] at hrel
  cases hrel
  exact hanchors n hn a hk

theorem unanchored_of_all
    (h : p.nodes.toList.all (fun o => o.all fun node => !node.kind matches .anchor _) = true)
    (id : PatternId) : p.Unanchored id := by
  intro n _ a hkind
  obtain ⟨node, hnode, hanchor⟩ := Option.map_eq_some_iff.1 hkind
  have hnot := of_all_nodes h hnode
  rw [hanchor] at hnot
  exact Bool.false_ne_true hnot

/-- In every pool with a history, a live pattern is known to be nullable if and only if its range of
lengths begins with zero. Without anchors and matchers, it then matches the empty string in every
empty region, where no other pattern matches, and it never fails in a region that is not past the
end of the buffer, but for the full mode. -/
theorem run_nullable_consistent (cs : List Command) (id : PatternId)
    (hid : (run cs).contains id = true) :
    let p := run cs
    ((p.starts id).nullable = true ↔ (p.sample id).Defined ∧ (p.sample id).low = 0) ∧
      (p.Unanchored id → p.Bare id → ∀ data : Buffer, data.size < 2 ^ 58 →
        (∀ k ≤ data.bitSize, ∀ mode,
          p.matchIn id data ⟨k, k⟩ mode = if (p.starts id).nullable then some ⟨k, 0⟩ else none) ∧
        ((p.starts id).nullable = true → ∀ region : BitRange, region.Defined →
          region.low ≤ data.bitSize →
          ∀ mode, mode ≠ .full → ∃ hit, p.matchIn id data region mode = some hit ∧
            hit.offset = region.low)) := by
  intro p
  have hp : p.WellFormed := wellFormed_run cs
  obtain ⟨t, ht, hunfolds⟩ := hp.exists_tree hid
  have hvalid : t.Valid := hunfolds.valid
  have hstarts : p.starts id = t.deduced.starts := by
    rw [starts, ← hunfolds.summary, hunfolds.faithful.root]
  have hnil := Tree.nullable_deduced_iff hvalid
  have hvalid' : t.compared.Valid := Tree.valid_compared hvalid
  have hnullable' := Tree.nullable_compared hvalid
  rw [hstarts]
  constructor
  · rw [hnil, (hunfolds.faithful.bounds hvalid).nil_mem_iff, hunfolds.sample]
  · intro hanchors hbare data hsize
    have hanchors' := (hp.unanchored ht hanchors).compared
    -- with what it is compared by, the tree has its own table, and is as nullable
    have hsifted : ∀ region mode,
        p.matchIn id data region mode = t.compared.siftedIn t.skips data region mode := by
      intro region mode
      rw [matchIn, ht]
      exact Tree.matchIn_eq_compared hvalid hunfolds.faithful (hunfolds.bare hbare)
        (Buffer.bitSize_lt_inf hsize)
        region mode
    simp only [hsifted]
    refine ⟨fun k hk mode => ?_, fun hnullable region hregion hlow mode hmode => ?_⟩
    · rw [Tree.siftedIn_empty hvalid' hanchors' hk, hnullable']
    · have htrivial : t.skips.IsTrivial := by
        rw [Tree.skips, hunfolds.faithful.root]
        exact (Tree.isTrivial_deduced hvalid (hnil.1 hnullable)).2
      have hnil' := (Tree.nullable_deduced_iff hvalid').1 (hnullable'.trans hnullable)
      exact Tree.exists_siftedIn hvalid' hanchors' hnil' htrivial hregion hlow hmode

/-- An optional letter before what has no instance, with the letter alone as the other alternative,
three times or more: it matches the empty string at the end of a buffer, and matches where a search
begins, inside of a byte. The first alternative has no instance at all, and does not match. -/
theorem run_nullable_consistent_nested :
    let p :=
      run [.lit [97], .alt [], .rep ⟨0⟩ .optional, .seq [⟨2⟩, ⟨1⟩], .alt [⟨3⟩, ⟨2⟩],
        .rep ⟨4⟩ (.atLeast 3)]
    p.contains ⟨5⟩ = true ∧ p.contains ⟨3⟩ = true ∧ (p.sample ⟨5⟩).low = 0 ∧
      p.matchIn ⟨5⟩ #[98] ⟨8, 8⟩ .full = some ⟨8, 0⟩ ∧ p.matchIn ⟨3⟩ #[98] ⟨8, 8⟩ .search = none ∧
      ∃ hit, p.matchIn ⟨5⟩ #[98, 97] ⟨3, 16⟩ .search = some hit ∧ hit.offset = 3 := by
  intro p
  have hanchors : ∀ id, p.Unanchored id := unanchored_of_all (by decide)
  have hbare : ∀ id, p.Bare id := fun _ n _ => matcher?_eq_none_of_all (by decide) n
  have hnullable : (p.starts ⟨5⟩).nullable = true := by decide
  have hnever : (p.starts ⟨3⟩).nullable = false := by decide
  have hid : p.contains ⟨5⟩ = true := by decide
  have hid' : p.contains ⟨3⟩ = true := by decide
  obtain ⟨hlow, hmatch⟩ := run_nullable_consistent _ ⟨5⟩ hid
  obtain ⟨-, hmatch'⟩ := run_nullable_consistent _ ⟨3⟩ hid'
  refine ⟨hid, hid', (hlow.1 hnullable).2, ?_, ?_, ?_⟩
  · rw [(hmatch (hanchors _) (hbare _) #[98] (by decide)).1 8 (by decide) .full, if_pos hnullable]
  · rw [(hmatch' (hanchors _) (hbare _) #[98] (by decide)).1 8 (by decide) .search,
      if_neg (by rw [hnever]; decide)]
  · exact (hmatch (hanchors _) (hbare _) #[98, 97] (by decide)).2 hnullable ⟨3, 16⟩ (by decide)
      (by decide) .search
      (by decide)

end Sigil.Pool
