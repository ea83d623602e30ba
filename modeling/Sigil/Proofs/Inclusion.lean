import Sigil.Proofs.Bounded
import Sigil.Proofs.Generality

namespace Sigil.Tree

variable {a b : Tree Note}

variable {related : Tree Note → Tree Note → Bool}

end Sigil.Tree
