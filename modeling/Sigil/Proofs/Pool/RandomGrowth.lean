import Sigil.Proofs.Bounded
import Sigil.Proofs.Pool.Random

namespace Sigil

def growthCount (low growthBits : Nat) : Nat := if low = 0 then nullableGrowth else growthBits / low

theorem maxCount_atLeast_le (least low budget growthBits : Nat) :
    max least (maxCount (.atLeast least) low budget growthBits) ≤
      least + growthCount low growthBits := by
  have hsum : satAdd least (growthCount low growthBits) ≤ least + growthCount low growthBits :=
    Nat.min_le_left ..
  have hmax : maxCount (.atLeast least) low budget growthBits ≤
      satAdd least (growthCount low growthBits) :=
    (Nat.min_le_left ..).trans (Nat.min_le_right ..)
  exact Nat.max_le.2 ⟨Nat.le_add_right .., hmax.trans hsum⟩

namespace Tree

variable {t : Tree Note} {σ : Type} [RandomSource σ]

/-- What is generated for an unbounded repetition are the applications of its minimum and of the
growth at most. -/
theorem always_generate_atLeast {n : Note} {least : Nat} (hvalid : t.Valid) (hfaithful : t.Faithful)
    (hflush : t.Flush) (hdefined : t.sample.Defined) (growthBits budget : Nat) :
    Always ((node n (.rep t (.atLeast least))).generate growthBits budget : StateM σ _)
      (Outcome True fun w => ∃ count, least ≤ count ∧
        count ≤ least + growthCount t.sample.low growthBits ∧
        w ∈ t.language ^ count) := by
  refine always_generate_rep hdefined fun count hmin hmax => ?_
  refine (outcome_generateTimes (generates hvalid hfaithful hflush growthBits) budget count {}).mono
    fun o ho => ho.mono (fun _ => trivial) ?_
  rintro w ⟨v, hv, heq, -⟩
  obtain rfl : w = v := heq
  exact ⟨count, hmin, hmax.trans (maxCount_atLeast_le ..), hv⟩

end Tree

theorem growthCount_eq_zero {low growthBits : Nat} (h : growthBits < low) :
    growthCount low growthBits = 0 := by
  rw [growthCount, if_neg (Nat.ne_of_gt (Nat.zero_lt_of_lt h)), Nat.div_eq_of_lt h]

/-- Where all instances have one length, or the bits are not enough for one, the applications stay
within the bits. -/
theorem growthCount_mul_le {low high growthBits : Nat} (h : low = high ∨ growthBits < low) :
    growthCount low growthBits * high ≤ growthBits := by
  unfold growthCount
  split
  case isTrue hzero =>
    obtain rfl : high = 0 := by omega
    exact Nat.zero_le growthBits
  case isFalse =>
    rcases h with rfl | hlt
    · exact Nat.div_mul_le_self growthBits low
    · rw [Nat.div_eq_of_lt hlt, Nat.zero_mul]
      exact Nat.zero_le growthBits

namespace Pool

variable {p : Pool} {id sub : PatternId}

theorem WellFormed.exists_tree_rep (h : p.WellFormed) {r : Repeat}
    (hkind : p.kind? id = some (.rep sub r)) :
    ∃ n u, p.tree? id = some (.node n (.rep u r)) ∧ p.tree? sub = some u := by
  obtain ⟨node, hnode, hrep⟩ : ∃ node, p.get? id = some node ∧ node.kind = .rep sub r :=
    Option.map_eq_some_iff.1 hkind
  obtain ⟨t, ht, -⟩ := h.exists_tree (contains_of_get? hnode)
  obtain ⟨k, rfl, hrel⟩ := h.exists_layer hnode ht
  rw [hrep] at hrel
  cases hrel with
  | rep hu => exact ⟨node.note, _, ht, hu.2⟩

theorem WellFormed.always_random_atLeast (h : p.WellFormed) {least : Nat}
    (hkind : p.kind? id = some (.rep sub (.atLeast least))) (hflush : p.Flush sub)
    (hdefined : (p.sample sub).Defined) (bound : BitRange) {σ : Type} [RandomSource σ] :
    Always (p.random id bound : StateM σ _) (Outcome True fun w => ∃ count, least ≤ count ∧
      count ≤ least + growthCount (p.sample sub).low p.growthBits ∧
        w ∈ p.language sub ^ count) := by
  obtain ⟨n, u, ht, hu⟩ := h.exists_tree_rep hkind
  have hunfolds := h.unfolds hu
  have hgenerate : Always
      ((Tree.node n (.rep u (.atLeast least))).generate p.growthBits bound.high : StateM σ _) _ :=
    Tree.always_generate_atLeast hunfolds.valid hunfolds.faithful (h.tree_flush hu hflush)
      (hunfolds.sample ▸ hdefined) p.growthBits bound.high
  rw [random, ht, language_eq hu, ← hunfolds.sample]
  exact (Tree.random_of_generate hgenerate).mono fun _ ho => ho.mono (fun _ => trivial) fun _ hw =>
    hw.1

/-- In every pool with a history and for all random words, an instance of an unbounded repetition
has no more applications than its minimum and those that the bits for growth admit of the shortest
instance, or the constant for patterns that can be empty. So it grows by no more than these bits if
all instances of the repeated pattern have one length, and not at all if the shortest one is
longer. -/
theorem run_random_growth (cs : List Command) {id sub : PatternId} {least : Nat}
    (hkind : (run cs).kind? id = some (.rep sub (.atLeast least))) (hflush : (run cs).Flush sub)
    (hdefined : ((run cs).sample sub).Defined) (hfinite : ((run cs).sample sub).high < inf)
    {σ : Type} [RandomSource σ] (s : σ) :
    let p := run cs
    let low := (p.sample sub).low
    let high := (p.sample sub).high
    ∀ w s', p.random id .full s = (some w, s') →
      (∃ count, least ≤ count ∧ count ≤ least + growthCount low p.growthBits ∧
        w ∈ p.language sub ^ count) ∧
      w.length ≤ (least + growthCount low p.growthBits) * high ∧
      (low = high ∨ p.growthBits < low → w.length ≤ least * high + p.growthBits) ∧
      (p.growthBits < low → w.length ≤ least * high) := by
  intro p low high w s' hw
  have hp : p.WellFormed := wellFormed_run cs
  have hdrawn := hp.always_random_atLeast hkind hflush hdefined .full s
  rw [hw] at hdrawn
  obtain ⟨count, hmin, hmax, hpow⟩ := hdrawn
  have hlength : ∀ v ∈ p.language sub, v.length ≤ high := by
    intro v hv
    have hsub : p.contains sub = true := hp.contains_subs hkind sub (List.mem_singleton_self sub)
    have hextent : min v.length inf ≤ high := (hp.bounds_sample hsub).extent_le_high hv
    exact (min_le_iff.1 hextent).resolve_right (Nat.not_le.2 hfinite)
  have hle : w.length ≤ (least + growthCount low p.growthBits) * high :=
    (Bounded.length_le_of_mem_pow hlength hpow).trans (Nat.mul_le_mul_right high hmax)
  refine ⟨⟨count, hmin, hmax, hpow⟩, hle, fun h => ?_, fun h => ?_⟩
  · have hgrowth := growthCount_mul_le h
    rw [Nat.add_mul] at hle
    omega
  · rwa [growthCount_eq_zero h, Nat.add_zero] at hle

/-- At least two letters, and two more in 20 bits. -/
theorem run_random_growth_letters :
    let p := run [.lit [97], .rep ⟨0⟩ (.atLeast 2), .setGrowthBits 20]
    ∃ w g, p.random ⟨1⟩ .full (Choices.mk [2]) = (some w, g) ∧ w.length ≤ 2 * 8 + 20 := by
  intro p
  have hkind : p.kind? ⟨1⟩ = some (.rep ⟨0⟩ (.atLeast 2)) := by decide
  have hsample : p.sample ⟨0⟩ = ⟨8, 8⟩ := by decide
  have hdrawn : (p.random ⟨1⟩ .full (Choices.mk [2])).1 =
      some (.ofBytes (List.replicate 4 97)) := by decide +kernel
  have hgrowth := run_random_growth _ hkind ((aligned_of_all (by decide)).flush _) (by decide)
    (by decide) (Choices.mk [2]) _ _ (Prod.ext hdrawn rfl)
  have hle := hgrowth.2.2.1 (Or.inl (by rw [hsample]))
  rw [hsample] at hle
  exact ⟨_, _, Prod.ext hdrawn rfl, hle⟩

/-- Ten letters, where eight bits of growth are for one, as a letter is the shortest instance. -/
theorem random_grows_by_longest :
    let p :=
      run [.lit [97], .lit (List.replicate 10 97), .alt [⟨0⟩, ⟨1⟩], .rep ⟨2⟩ (.atLeast 0),
        .setGrowthBits 8]
    p.kind? ⟨3⟩ = some (.rep ⟨2⟩ (.atLeast 0)) ∧ p.sample ⟨2⟩ = ⟨8, 80⟩ ∧ p.growthBits = 8 ∧
      (p.random ⟨3⟩ .full (Choices.mk [1, 1])).1 = some (.ofBytes (List.replicate 10 97)) ∧
      0 * 80 + 8 < (Bits.ofBytes (List.replicate 10 97)).length := by
  decide +kernel

/-- A letter of eight bits, cut out of the bytes `06` and `10`, grows by both of these. -/
theorem random_grows_by_storage :
    let p :=
      run [.literal { Literal.ofBytes [97] with nocase := true } 4, .rep ⟨0⟩ (.atLeast 0),
        .setGrowthBits 8]
    p.sample ⟨0⟩ = ⟨8, 8⟩ ∧ (p.random ⟨1⟩ .full (Choices.mk [1])).1 = some (.ofBytes [6, 16]) := by
  decide

end Pool

end Sigil
