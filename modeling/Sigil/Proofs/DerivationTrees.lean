import Mathlib.Algebra.BigOperators.Group.List.Basic
import Sigil.Proofs.Language

namespace Sigil

/-- A way to derive bits. -/
inductive Derivation where
  | leaf (bits : Bits)
  /-- An alternative is taken; it is named by its place. -/
  | choice (place : Nat) (chosen : Derivation)
  /-- Derivations one after the other. -/
  | parts (ds : List Derivation)

namespace Derivation

mutual

def yield : Derivation → Bits
  | leaf w => w
  | choice _ d => d.yield
  | parts ds => yieldAll ds

def yieldAll : List Derivation → Bits
  | [] => []
  | d :: ds => d.yield ++ yieldAll ds

end

theorem yieldAll_append (ds es : List Derivation) :
    yieldAll (ds ++ es) = yieldAll ds ++ yieldAll es := by
  induction ds with
  | nil => rfl
  | cons d ds ih => rw [List.cons_append, yieldAll, yieldAll, ih, List.append_assoc]

def yields (A : Set Derivation) : Language Bool := yield '' A

def sequences (As : List (Set Derivation)) : Set (List Derivation) :=
  {ds | List.Forall₂ (· ∈ ·) ds As}

def runs (A : Set Derivation) (P : Nat → Prop) : Set (List Derivation) :=
  {ds | P ds.length ∧ ∀ d ∈ ds, d ∈ A}

def choices : (place : Nat) → List (Set Derivation) → Set Derivation
  | _, [] => ∅
  | place, A :: As => choice place '' A ∪ choices (place + 1) As

variable {A : Set Derivation} {As : List (Set Derivation)} {w : Bits}

theorem sequences_replicate (n : Nat) (A : Set Derivation) :
    sequences (List.replicate n A) = runs A (· = n) := by
  ext ds
  show List.Forall₂ (· ∈ ·) ds (List.replicate n A) ↔ ds.length = n ∧ ∀ d ∈ ds, d ∈ A
  induction ds generalizing n with
  | nil => cases n <;> simp [List.replicate_succ]
  | cons d ds ih =>
    cases n with
    | zero => simp
    | succ n =>
      rw [List.replicate_succ, List.forall₂_cons, ih, List.length_cons, Nat.succ_inj,
        List.forall_mem_cons]
      tauto

theorem mem_prod_iff_sequences :
    w ∈ (As.map yields).prod ↔ ∃ ds ∈ sequences As, yieldAll ds = w := by
  induction As generalizing w with
  | nil =>
    rw [List.map_nil, List.prod_nil, Language.mem_one]
    constructor
    · rintro rfl
      exact ⟨[], .nil, rfl⟩
    · rintro ⟨_, ⟨⟩, rfl⟩
      rfl
  | cons A As ih =>
    rw [List.map_cons, List.prod_cons, Language.mem_mul]
    constructor
    · rintro ⟨_, ⟨d, hd, rfl⟩, y, hy, rfl⟩
      obtain ⟨ds, hds, rfl⟩ := ih.1 hy
      exact ⟨d :: ds, .cons hd hds, rfl⟩
    · rintro ⟨_, hall, rfl⟩
      cases hall with
      | @cons d _ ds _ hd hds => exact ⟨_, ⟨d, hd, rfl⟩, _, ih.2 ⟨ds, hds, rfl⟩, rfl⟩

theorem mem_pow_iff_runs {n : Nat} : w ∈ yields A ^ n ↔ ∃ ds ∈ runs A (· = n), yieldAll ds = w := by
  rw [← sequences_replicate, ← mem_prod_iff_sequences, List.map_replicate, List.prod_replicate]

theorem mem_sum_iff_choices (place : Nat) :
    w ∈ (As.map yields).sum ↔ ∃ d ∈ choices place As, d.yield = w := by
  induction As generalizing place with
  | nil =>
    rw [List.map_nil, List.sum_nil]
    exact ⟨fun hw => absurd hw (Language.notMem_zero w), fun ⟨d, hd, _⟩ =>
      absurd hd (Set.notMem_empty d)⟩
  | cons A As ih =>
    rw [List.map_cons, List.sum_cons]
    constructor
    · rintro (⟨d, hd, rfl⟩ | hw)
      · exact ⟨.choice place d, Or.inl ⟨d, hd, rfl⟩, rfl⟩
      · obtain ⟨d, hd, rfl⟩ := (ih (place + 1)).1 hw
        exact ⟨d, Or.inr hd, rfl⟩
    · rintro ⟨_, ⟨d, hd, rfl⟩ | hd, rfl⟩
      · exact Or.inl ⟨d, hd, rfl⟩
      · exact Or.inr ((ih (place + 1)).2 ⟨_, hd, rfl⟩)

end Derivation

open Sigil.Derivation (leaf parts choices sequences runs)

def Kind.derivations : Kind (Set Derivation) → Set Derivation
  | lit l => leaf '' {w | l.Spells w}
  | any bits => leaf '' {w | w.length = bits}
  | range lo hi => leaf '' {w | ∃ b, lo ≤ b ∧ b ≤ hi ∧ w = Bits.ofByte b}
  | anchor _ => {leaf []}
  | alt subs => choices 0 subs
  | seq subs => parts '' sequences subs
  | rep sub r => parts '' runs sub r.Allows
  | ctx _ sub => sub

theorem Kind.language_yields (k : Kind (Set Derivation)) :
    (k.map Derivation.yields).language = Derivation.yields k.derivations := by
  have hleaf : ∀ L : Set Bits, Derivation.yields (leaf '' L) = L := by
    intro L
    rw [Derivation.yields, Set.image_image]
    exact Set.image_id' L
  cases k with
  | lit l => exact (hleaf _).symm
  | any bits => exact (hleaf _).symm
  | range lo hi => exact (hleaf _).symm
  | anchor a => exact (Set.image_singleton (f := Derivation.yield) (a := leaf [])).symm
  | alt subs => exact Set.ext fun w => Derivation.mem_sum_iff_choices 0
  | seq subs =>
    refine Set.ext fun w => Derivation.mem_prod_iff_sequences.trans ?_
    rw [derivations, Derivation.yields, Set.image_image]
    rfl
  | rep sub r =>
    refine Set.ext fun w => ?_
    rw [derivations, Derivation.yields, Set.image_image]
    constructor
    · rintro ⟨n, hn, hw⟩
      obtain ⟨ds, ⟨rfl, hds⟩, rfl⟩ := Derivation.mem_pow_iff_runs.1 hw
      exact ⟨ds, ⟨hn, hds⟩, rfl⟩
    · rintro ⟨ds, ⟨hn, hds⟩, rfl⟩
      exact ⟨ds.length, hn, Derivation.mem_pow_iff_runs.2 ⟨ds, ⟨rfl, hds⟩, rfl⟩⟩
  | ctx d sub => rfl

namespace Tree

variable {ν : Type}

def derivations (t : Tree ν) : Set Derivation := t.fold Kind.derivations

theorem derivations_node (n : ν) (k : Kind (Tree ν)) :
    (node n k).derivations = (k.map derivations).derivations := fold_node ..

/-- The instances of a tree are what its derivations yield. -/
theorem language_eq_yields (t : Tree ν) : t.language = Derivation.yields t.derivations := by
  induction t using induct_subs with
  | node n k ih =>
    rw [language_node, derivations_node, ← Kind.language_yields, Kind.map_map]
    exact congrArg Kind.language (Kind.map_congr ih)

theorem mem_language_iff_derivations {t : Tree ν} {w : Bits} :
    w ∈ t.language ↔ ∃ d ∈ t.derivations, d.yield = w := by
  rw [language_eq_yields]
  rfl

end Tree

end Sigil
