import Sigil.Proofs.Inclusion
import Sigil.Proofs.Pool.Generality

namespace Sigil.Pool

open Relation (ReflTransGen)

variable {p : Pool} {a b id : PatternId} {t : Tree Note}

/-- The bits of `a` in any case, cut out of the bytes `06` and `10`, count as one instance, which is
`a`. -/
theorem generalizes_nocase_inside_bytes :
    let p := run [.lit [97], .literal { Literal.ofBytes [97] with nocase := true } 4]
    p.generalizes ⟨0⟩ ⟨1⟩ = true ∧ Bits.ofBytes [65] ∈ p.language ⟨1⟩ ∧
      Bits.ofBytes [65] ∉ p.language ⟨0⟩ := by
  refine ⟨by decide, ?_, fun hspells => ?_⟩
  · exact Literal.spells_ofBytes (l := { Literal.ofBytes [97] with nocase := true }) (by decide)
      (.cons (by decide) .nil)
  · have hbits := Literal.Spells.eq_bits (l := .ofBytes [97]) hspells (by decide)
    exact absurd hbits (by decide)

end Sigil.Pool
