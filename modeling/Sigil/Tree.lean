import Sigil.Kind

namespace Sigil

/-- A pattern with a note of type `ν` at each node. -/
inductive Tree (ν : Type) where
  | node (note : ν) (kind : Kind (Tree ν))

abbrev Shape := Tree Unit

namespace Tree

variable {ν μ : Type}

def note : Tree ν → ν
  | node n _ => n

def kind : Tree ν → Kind (Tree ν)
  | node _ k => k

/-- Induction over trees, where a hypothesis holds for each sub-pattern of a list. -/
@[elab_as_elim, induction_eliminator]
theorem induct {P : Tree ν → Prop} (lit : ∀ n l, P (node n (.lit l)))
    (any : ∀ n bits, P (node n (.any bits))) (range : ∀ n lo hi, P (node n (.range lo hi)))
    (anchor : ∀ n a, P (node n (.anchor a)))
    (alt : ∀ n ts, (∀ t ∈ ts, P t) → P (node n (.alt ts)))
    (seq : ∀ n ts, (∀ t ∈ ts, P t) → P (node n (.seq ts)))
    (rep : ∀ n t r, P t → P (node n (.rep t r)))
    (ctx : ∀ n d t, P t → P (node n (.ctx d t))) (t : Tree ν) : P t := by
  induction t using Tree.rec (motive_2 := fun k => ∀ n, P (node n k))
    (motive_3 := fun ts => ∀ t ∈ ts, P t) with
  | node n k ih => exact ih n
  | lit l n => exact lit n l
  | any bits n => exact any n bits
  | range lo hi n => exact range n lo hi
  | anchor a n => exact anchor n a
  | alt ts ih n => exact alt n ts ih
  | seq ts ih n => exact seq n ts ih
  | rep t r ih n => exact rep n t r ih
  | ctx d t ih n => exact ctx n d t ih
  | nil t ht => exact absurd ht List.not_mem_nil
  | cons t ts ht hts u hu => exact (List.mem_cons.1 hu).elim (fun e => e ▸ ht) (hts u)

/-! ## Shapes -/

mutual

def shape : Tree ν → Shape
  | node _ (.lit l) => .node () (.lit l)
  | node _ (.any n) => .node () (.any n)
  | node _ (.range lo hi) => .node () (.range lo hi)
  | node _ (.anchor a) => .node () (.anchor a)
  | node _ (.alt ts) => .node () (.alt (shapes ts))
  | node _ (.seq ts) => .node () (.seq (shapes ts))
  | node _ (.rep t r) => .node () (.rep t.shape r)
  | node _ (.ctx d t) => .node () (.ctx d t.shape)

def shapes : List (Tree ν) → List Shape
  | [] => []
  | t :: ts => t.shape :: shapes ts

end

mutual

def same : Tree ν → Tree μ → Bool
  | node _ (.lit l), node _ (.lit m) => l == m
  | node _ (.any n), node _ (.any m) => n == m
  | node _ (.range lo hi), node _ (.range lo' hi') => lo == lo' && hi == hi'
  | node _ (.anchor a), node _ (.anchor b) => a == b
  | node _ (.alt ts), node _ (.alt us) => allSame ts us
  | node _ (.seq ts), node _ (.seq us) => allSame ts us
  | node _ (.rep t r), node _ (.rep u q) => r == q && t.same u
  | node _ (.ctx d t), node _ (.ctx e u) => d == e && t.same u
  | _, _ => false

def allSame : List (Tree ν) → List (Tree μ) → Bool
  | [], [] => true
  | t :: ts, u :: us => t.same u && allSame ts us
  | _, _ => false

end

theorem shapes_eq_map (ts : List (Tree ν)) : shapes ts = ts.map shape := by
  induction ts with
  | nil => rfl
  | cons t ts ih => simp [shapes, ih]

theorem allSame_iff {ts : List (Tree ν)}
    (h : ∀ t ∈ ts, ∀ u : Tree μ, t.same u = true ↔ t.shape = u.shape) (us : List (Tree μ)) :
    allSame ts us = true ↔ shapes ts = shapes us := by
  induction ts generalizing us with
  | nil => cases us <;> simp [allSame, shapes]
  | cons t ts ih =>
    cases us with
    | nil => simp [allSame, shapes]
    | cons u us =>
      have ht := h t (by simp) u
      have hts := ih (fun s hs => h s (by simp [hs])) us
      simp [allSame, shapes, ht, hts]

/-- Being the same is equality of shapes. -/
theorem same_iff (t : Tree ν) (u : Tree μ) : t.same u = true ↔ t.shape = u.shape := by
  induction t generalizing u with
  | alt n ts ih | seq n ts ih =>
    obtain ⟨m, k⟩ := u
    cases k <;> simp [same, shape, allSame_iff ih]
  | rep n t r ih | ctx n d t ih =>
    obtain ⟨m, k⟩ := u
    cases k <;> simp [same, shape, ih, and_comm]
  | _ =>
    obtain ⟨m, k⟩ := u
    cases k <;> simp [same, shape]

theorem shape_eq_self (s : Shape) : s.shape = s := by
  induction s using Tree.induct with
  | alt n ts ih | seq n ts ih =>
    simp only [shape, shapes_eq_map, node.injEq, true_and, Kind.alt.injEq, Kind.seq.injEq]
    exact (List.map_congr_left ih).trans (List.map_id' ts)
  | rep n t r ih | ctx n d t ih => simp [shape, ih]
  | _ => rfl

instance : DecidableEq Shape := fun s t =>
  decidable_of_iff (s.same t = true) (by rw [same_iff, shape_eq_self, shape_eq_self])

mutual

def size : Tree ν → Nat
  | node _ (.alt ts) => sizes ts + 1
  | node _ (.seq ts) => sizes ts + 1
  | node _ (.rep t _) => t.size + 1
  | node _ (.ctx _ t) => t.size + 1
  | node _ (.lit _) => 1
  | node _ (.any _) => 1
  | node _ (.range ..) => 1
  | node _ (.anchor _) => 1

def sizes : List (Tree ν) → Nat
  | [] => 0
  | t :: ts => t.size + sizes ts

end

mutual

def hasAnchors : Tree ν → Bool
  | node _ (.anchor _) => true
  | node _ (.alt ts) => anyAnchors ts
  | node _ (.seq ts) => anyAnchors ts
  | node _ (.rep t _) => t.hasAnchors
  | node _ (.ctx _ t) => t.hasAnchors
  | node _ (.lit _) => false
  | node _ (.any _) => false
  | node _ (.range ..) => false

def anyAnchors : List (Tree ν) → Bool
  | [] => false
  | t :: ts => t.hasAnchors || anyAnchors ts

end

end Tree

end Sigil
