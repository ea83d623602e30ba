import Sigil.Proofs.Generation
import Sigil.Proofs.Pool.Lengths

namespace Sigil.Pool

open Relation (ReflTransGen)

variable {p : Pool} {id : PatternId} {t : Tree Note}

/-- The ranges of lengths at and under the pattern begin with lengths of instances; none of these is
cut at `inf`. -/
def Uncut (p : Pool) (id : PatternId) : Prop :=
  ∀ n, ReflTransGen p.Embeds id n → (p.sample n).Defined → ∃ u ∈ p.language n, u.length =
    (p.sample n).low

/-- For the eight bits of `a` in any case, cut out of the bytes `06` and `10`, both of these are
generated. -/
theorem random_nocase_inside_bytes :
    let p := run [.literal { Literal.ofBytes [97] with nocase := true } 4]
    p.sample ⟨0⟩ = ⟨8, 8⟩ ∧ (p.random ⟨0⟩ .full (Choices.mk [])).1 = some (.ofBytes [6, 16]) := by
  decide

end Sigil.Pool
