import Sigil.Tree

namespace Sigil

namespace Digest

/-- The digest of some words that end with the given one, from the digest of those before it. -/
def add (digest word : UInt64) : UInt64 :=
  ((digest <<< 5 ||| digest >>> 59) ^^^ word) * 0x517CC1B727220A95

def ofWords (words : List UInt64) : UInt64 := words.foldl add 0

end Digest

def Literal.words (l : Literal) : List UInt64 :=
  l.bits.map (fun b => if b then 1 else 0) ++
    [(if l.nocase then 1 else 0) ||| (if l.dash then 2 else 0)]

def Repeat.words (r : Repeat) : List UInt64 :=
  .ofNat r.min :: match r.max with
    | none => [0]
    | some max => [1, .ofNat max]

namespace Kind

def words : Kind UInt64 → List UInt64
  | lit l => 0 :: l.words
  | any bits => [1, .ofNat bits]
  | range lo hi => [2, lo.toUInt64, hi.toUInt64]
  | anchor a => [3, .ofNat a.ctorIdx]
  | alt subs => 4 :: .ofNat subs.length :: subs
  | seq subs => 5 :: .ofNat subs.length :: subs
  | rep sub r => 6 :: r.words ++ [sub]
  | ctx d sub => [7, .ofNat d.ctorIdx, sub]

def digest (k : Kind UInt64) : UInt64 := Digest.ofWords k.words

end Kind

namespace Tree

variable {ν : Type}

mutual

def digest : Tree ν → UInt64
  | node _ (.lit l) => Kind.digest (.lit l)
  | node _ (.any n) => Kind.digest (.any n)
  | node _ (.range lo hi) => Kind.digest (.range lo hi)
  | node _ (.anchor a) => Kind.digest (.anchor a)
  | node _ (.alt ts) => Kind.digest (.alt (digests ts))
  | node _ (.seq ts) => Kind.digest (.seq (digests ts))
  | node _ (.rep t r) => Kind.digest (.rep t.digest r)
  | node _ (.ctx d t) => Kind.digest (.ctx d t.digest)

def digests : List (Tree ν) → List UInt64
  | [] => []
  | t :: ts => t.digest :: digests ts

end

end Tree

end Sigil
