import Sigil.Proofs.Generation
import Sigil.Proofs.Pool.Complexity
import Sigil.Proofs.Pool.Generality
import Sigil.Tree.SelfCheck

namespace Sigil

namespace Tree

variable {t : Tree Note} {w : Bits}

end Tree

namespace Pool

/-- A letter in any case, cut out of the bytes `06` and `10`, does not match itself, and its
self-check fails. -/
theorem selfCheck_nocase_inside_bytes :
    let p := run [.literal { Literal.ofBytes [97] with nocase := true } 4]
    p.matchIn ⟨0⟩ #[97] ⟨0, 8⟩ .anchored = none ∧
      ((p.selfCheck ⟨0⟩ 1 (Choices.mk [])).1 matches .error _) = true := by
  decide

end Pool

end Sigil
