import Sigil.Proofs.Matching

namespace Sigil

variable {ν : Type}

namespace Tree

mutual

/-- The bits are an instance of the pattern when they begin at the offset. The anchors on the way
are listed with the offsets where they are asked for. -/
inductive Derives : Tree ν → Nat → Bits → List (Anchor × Nat) → Prop where
  | lit {n : ν} {l : Literal} {pos : Nat} {w : Bits} (h : l.Spells w) :
    Derives (.node n (.lit l)) pos w []
  | any {n : ν} {bits pos : Nat} {w : Bits} (h : w.length = bits) :
    Derives (.node n (.any bits)) pos w []
  | range {n : ν} {lo hi b : UInt8} {pos : Nat} (hlo : lo ≤ b) (hhi : b ≤ hi) :
      Derives (.node n (.range lo hi)) pos (Bits.ofByte b) []
  | anchor {n : ν} {a : Anchor} {pos : Nat} : Derives (.node n (.anchor a)) pos [] [(a, pos)]
  | alt {n : ν} {ts : List (Tree ν)} {t : Tree ν} {pos : Nat} {w : Bits}
    {anchors : List (Anchor × Nat)} (ht : t ∈ ts)
      (h : Derives t pos w anchors) : Derives (.node n (.alt ts)) pos w anchors
  | seq {n : ν} {ts : List (Tree ν)} {pos : Nat} {w : Bits} {anchors : List (Anchor × Nat)}
      (h : DerivesAll ts pos w anchors) : Derives (.node n (.seq ts)) pos w anchors
  | rep {n : ν} {t : Tree ν} {r : Repeat} {count pos : Nat} {w : Bits}
    {anchors : List (Anchor × Nat)}
      (hcount : r.Allows count) (h : DerivesAll (List.replicate count t) pos w anchors) :
      Derives (.node n (.rep t r)) pos w anchors
  | ctx {n : ν} {d : Domain} {t : Tree ν} {pos : Nat} {w : Bits} {anchors : List (Anchor × Nat)}
      (h : Derives t pos w anchors) : Derives (.node n (.ctx d t)) pos w anchors

inductive DerivesAll : List (Tree ν) → Nat → Bits → List (Anchor × Nat) → Prop where
  | nil {pos : Nat} : DerivesAll [] pos [] []
  | cons {t : Tree ν} {ts : List (Tree ν)} {pos : Nat} {w v : Bits}
    {anchors more : List (Anchor × Nat)}
      (head : Derives t pos w anchors) (tail : DerivesAll ts (pos + w.length) v more) :
      DerivesAll (t :: ts) pos (w ++ v) (anchors ++ more)

end

/-! ## Instances have derivations -/

end Tree

/-! ## What is matched has a derivation that holds -/

/-- From one offset to the other the buffer holds the bits, and all the anchors hold in it. -/
structure Buffer.Bears (data : Buffer) (pos stop : Nat) (w : Bits) (anchors : List (Anchor × Nat)) :
    Prop where
  stop_eq : stop = pos + w.length
  holdsBits : data.holdsBits w pos = true
  holds : ∀ a ∈ anchors, a.1.holds data a.2 = true

theorem Buffer.Bears.append {data : Buffer} {pos mid stop : Nat} {w v : Bits}
    {anchors more : List (Anchor × Nat)} (h : data.Bears pos mid w anchors)
    (h' : data.Bears mid stop v more) :
    data.Bears pos stop (w ++ v) (anchors ++ more) := by
  refine ⟨?_, ?_, ?_⟩
  · rw [h'.stop_eq, h.stop_eq, List.length_append, Nat.add_assoc]
  · rw [holdsBits_append, ← h.stop_eq]
    exact ⟨h.holdsBits, h'.holdsBits⟩
  · intro a ha
    exact (List.mem_append.1 ha).elim (h.holds a) (h'.holds a)

namespace Tree

variable {data : Buffer} {limit : Nat}

end Tree

end Sigil
