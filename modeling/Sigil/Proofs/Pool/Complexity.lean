import Sigil.Proofs.Complexity
import Sigil.Proofs.Pool.Matching

namespace Sigil

open Sigil.Derivation (within)
open Bits (extent)

namespace Pool

open Relation (ReflTransGen)

variable {p : Pool} {id : PatternId} {t : Tree Note} {k : Kind PatternId}

def Representable (p : Pool) (id : PatternId) : Prop :=
  ∀ n k, ReflTransGen p.Embeds id n → p.kind? n = some k → k.Representable

def derivations (p : Pool) (id : PatternId) : Set Derivation :=
  ((p.tree? id).map Tree.derivations).getD ∅

/-- The bits of `a` in any case, cut out of the bytes `06` and `10`, are counted as these, which
have no case. -/
theorem complexity_nocase_inside_bytes :
    let p := run [.literal { Literal.ofBytes [97] with nocase := true } 4]
    p.complexity ⟨0⟩ .full = 1 ∧ Bits.ofBytes [97] ∈ p.language ⟨0⟩ ∧
      Bits.ofBytes [65] ∈ p.language ⟨0⟩ := by
  have hspells : ∀ b, Literal.accepts { Literal.ofBytes [97] with nocase := true } 97 b = true →
      Literal.Spells { Literal.ofBytes [97] with nocase := true } (Bits.ofBytes [b]) := fun b hb =>
    Literal.spells_ofBytes (by decide) (.cons hb .nil)
  exact ⟨by decide, hspells 97 (by decide), hspells 65 (by decide)⟩

end Pool

end Sigil
