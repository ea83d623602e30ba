import Sigil.Proofs.Pool.Coherence
import Sigil.Proofs.Pool.Matching

namespace Sigil.Pool

/-- In every pool with a history, the skip table of a live pattern holds no byte that agrees with an
instance on the first eight bits, or on all bits of a shorter instance. If there is an empty
instance, the pattern is known to be nullable, and the table holds nothing. -/
theorem run_skips_no_instance (cs : List Command) (id : PatternId)
    (hid : (run cs).contains id = true) (w : Bits) (hw : w ∈ (run cs).language id) :
    (w = [] → ((run cs).starts id).nullable = true ∧ ((run cs).skips id).IsTrivial) ∧
      ∀ b : UInt8, (Bits.ofByte b).take (min 8 w.length) = w.take (min 8 w.length) →
        ((run cs).skips id).skips b = false := by
  have hp := wellFormed_run cs
  obtain ⟨t, ht, hunfolds⟩ := hp.exists_tree hid
  obtain ⟨u, hu, hsummary⟩ := hp.exists_deduced hid
  obtain rfl := Option.some.inj (ht.symm.trans hu)
  rw [language_eq ht] at hw
  rw [starts, skips, hsummary]
  constructor
  · rintro rfl
    exact Tree.isTrivial_deduced hunfolds.valid hw
  · intro b hb
    exact Tree.not_skips_deduced hunfolds.valid hw (Bits.leads_of_take_eq hb)

/-- An optional letter, and a byte from two halves of which the first one is fixed: where there is
no letter, the first byte of the instance is not skipped. Letters are not skipped either, but digits
are. -/
theorem run_skips_no_instance_halves :
    let p :=
      run [.range 97 122, .rep ⟨0⟩ .optional,
        .literal ⟨[false, true, false, true], false, false⟩, .any 4, .seq [⟨1⟩, ⟨2⟩, ⟨3⟩]]
    Bits.ofByte 0x5D ∈ p.language ⟨4⟩ ∧ (p.skips ⟨4⟩).skips 0x5D = false ∧
      (p.skips ⟨4⟩).skips 55 = true := by
  intro p
  have hletter : [] ∈ p.language ⟨1⟩ :=
    ⟨0, ⟨Nat.le_refl 0, fun m _ => Nat.zero_le m⟩, Language.nil_mem_one⟩
  have hhalf : [false, true, false, true] ∈ p.language ⟨2⟩ :=
    Literal.spells_bits (l := ⟨[false, true, false, true], false, false⟩) (Or.inl ⟨rfl, rfl⟩)
  have hrest : [true, true, false, true] ∈ p.language ⟨3⟩ := rfl
  have hw : Bits.ofByte 0x5D ∈ p.language ⟨4⟩ :=
    Language.append_mem_mul hletter (Language.append_mem_mul hhalf
      (Language.append_mem_mul hrest Language.nil_mem_one))
  exact ⟨hw, (run_skips_no_instance _ ⟨4⟩ (by decide) _ hw).2 0x5D rfl, by decide⟩

end Sigil.Pool
