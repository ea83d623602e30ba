import Sigil.Proofs.Constant
import Sigil.Proofs.Generation
import Sigil.Proofs.Pool.Complexity

namespace Sigil

namespace Tree

variable {t : Tree Note} {w : Bits}

end Tree

namespace Pool

/-- The bits of `a` in any case, cut out of the bytes `06` and `10`, are a constant that these are
generated for. -/
theorem isConstant_nocase_inside_bytes :
    let p := run [.literal { Literal.ofBytes [97] with nocase := true } 4]
    p.isConstant ⟨0⟩ = true ∧ (p.sample ⟨0⟩).high = 8 ∧
      (p.random ⟨0⟩ .full (Choices.mk [])).1 = some (.ofBytes [6, 16]) := by
  decide

end Pool

end Sigil
