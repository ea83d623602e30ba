import Mathlib
import Sigil.Proofs.DerivationTrees
import Sigil.Proofs.Lengths

namespace Sigil

open Bits (extent)

/-! ## Numbers as far as `inf` -/

def Near (x y : ℕ∞) : Prop := x = y ∨ (inf : ℕ∞) ≤ x ∧ (inf : ℕ∞) ≤ y

namespace Near

variable {x y z u v : ℕ∞}

theorem refl (x : ℕ∞) : Near x x := Or.inl rfl

theorem of_eq (h : x = y) : Near x y := Or.inl h

theorem trans (h : Near x y) (h' : Near y z) : Near x z := by
  rcases h with rfl | ⟨hx, hy⟩
  · exact h'
  · rcases h' with rfl | ⟨-, hz⟩
    · exact Or.inr ⟨hx, hy⟩
    · exact Or.inr ⟨hx, hz⟩

theorem of_min_eq {a b : Nat} (h : min a inf = min b inf) : Near a b := by
  by_cases heq : a = b
  · exact Or.inl (congrArg _ heq)
  · exact Or.inr ⟨Nat.cast_le.2 (by omega), Nat.cast_le.2 (by omega)⟩

theorem add (h : Near x y) (h' : Near u v) : Near (x + u) (y + v) := by
  rcases h with rfl | ⟨hx, hy⟩
  · rcases h' with rfl | ⟨hu, hv⟩
    · exact refl _
    · exact Or.inr ⟨hu.trans le_add_self, hv.trans le_add_self⟩
  · exact Or.inr ⟨hx.trans le_self_add, hy.trans le_self_add⟩

theorem mul_left (h : Near x y) (z : ℕ∞) : Near (z * x) (z * y) := by
  rcases h with rfl | ⟨hx, hy⟩
  · exact refl _
  · rcases eq_or_ne z 0 with rfl | hz
    · rw [zero_mul, zero_mul]
      exact refl _
    · have hle : ∀ x : ℕ∞, x ≤ z * x :=
        fun x => le_mul_of_one_le_left' (Order.one_le_iff_ne_zero.2 hz)
      exact Or.inr ⟨hx.trans (hle x), hy.trans (hle y)⟩

theorem mul (h : Near x y) (h' : Near u v) : Near (x * u) (y * v) := by
  refine (h'.mul_left x).trans ?_
  rw [mul_comm x, mul_comm y]
  exact h.mul_left v

theorem sum {ι : Type*} {s : Finset ι} {f g : ι → ℕ∞} (h : ∀ i ∈ s, Near (f i) (g i)) :
    Near (∑ i ∈ s, f i) (∑ i ∈ s, g i) := by
  classical
  induction s using Finset.induction_on with
  | empty => exact refl _
  | insert i s hi ih =>
    rw [Finset.sum_insert hi, Finset.sum_insert hi]
    exact (h i (Finset.mem_insert_self i s)).add (ih fun j hj => h j (Finset.mem_insert_of_mem hj))

theorem eq_zero (h : Near 0 x) : x = 0 := by
  rcases h with h | ⟨h, -⟩
  · exact h.symm
  · exact absurd (Nat.cast_le.1 h) (by decide)

end Near

/-! ## Numbers by length -/

def lengths : Finset Nat := Finset.Iic inf

theorem mem_lengths {n : Nat} : n ∈ lengths ↔ n ≤ inf := Finset.mem_Iic

theorem extent_mem_lengths (w : Bits) : extent w ∈ lengths := mem_lengths.2 (Nat.min_le_right ..)

def convolve {M : Type*} [NonUnitalNonAssocSemiring M] (f g : Nat → M) (n : Nat) : M :=
  ∑ i ∈ lengths, ∑ j ∈ lengths with satAdd i j = n, f i * g j

theorem le_of_satAdd_eq {i j n : Nat} (hi : i ∈ lengths) (hj : j ∈ lengths) (h : satAdd i j = n) :
    i ≤ n ∧ j ≤ n := by
  rw [mem_lengths] at hi hj
  unfold satAdd at h
  omega

theorem Near.convolve {f f' g g' : Nat → ℕ∞} {cap n : Nat} (hf : ∀ i ≤ cap, Near (f i) (f' i))
    (hg : ∀ i ≤ cap, Near (g i) (g' i)) (hn : n ≤ cap) :
    Near (Sigil.convolve f g n) (Sigil.convolve f' g' n) := by
  refine Near.sum fun i hi => Near.sum fun j hj => ?_
  rw [Finset.mem_filter] at hj
  obtain ⟨hin, hjn⟩ := le_of_satAdd_eq hi hj.1 hj.2
  exact (hf i (hin.trans hn)).mul (hg j (hjn.trans hn))

theorem convolve_eq_zero {f g : Nat → ℕ∞} {n : Nat} (h : ∀ i ≤ n, ∀ j ≤ n, f i * g j = 0) :
    convolve f g n = 0 := by
  refine Finset.sum_eq_zero fun i hi => Finset.sum_eq_zero fun j hj => ?_
  rw [Finset.mem_filter] at hj
  obtain ⟨hin, hjn⟩ := le_of_satAdd_eq hi hj.1 hj.2
  exact h i hin j hjn

theorem convolve_cast (f g : Nat → Nat) (n : Nat) :
    ((convolve f g n : Nat) : ℕ∞) = convolve (fun i => (f i : ℕ∞)) (fun i => (g i : ℕ∞)) n := by
  unfold convolve
  push_cast
  rfl

/-- The members of a set are sorted by a number that goes with each. -/
theorem encard_eq_sum_fibers {α : Type*} {S : Set α} {k : α → Nat} {s : Finset Nat}
    (h : ∀ x ∈ S, k x ∈ s) : S.encard = ∑ i ∈ s, {x ∈ S | k x = i}.encard := by
  have hunion : S = ⋃ i ∈ (s : Set Nat), {x ∈ S | k x = i} := by
    ext x
    simp only [Set.mem_iUnion, Set.mem_ofPred_eq, exists_prop, Finset.mem_coe]
    exact ⟨fun hx => ⟨k x, h x hx, hx, rfl⟩, fun ⟨_, _, hx, _⟩ => hx⟩
  have hdisjoint : (s : Set Nat).PairwiseDisjoint fun i => {x ∈ S | k x = i} := by
    intro i _ j _ hij
    refine Set.disjoint_left.2 fun x hx hx' => hij ?_
    rw [← hx.2, hx'.2]
  conv_lhs => rw [hunion]
  rw [s.finite_toSet.encard_biUnion hdisjoint, finsum_mem_coe_finset]

noncomputable def number {α : Type*} (yield : α → Bits) (A : Set α) (n : Nat) : ℕ∞ :=
  {a ∈ A | extent (yield a) = n}.encard

section Number

variable {α β : Type*} {f : α → Bits} {g : β → Bits} {A B : Set α} {n : Nat}

theorem number_eq_zero : number f A n = 0 ↔ ∀ a ∈ A, extent (f a) ≠ n := by
  rw [number, Set.encard_eq_zero, Set.eq_empty_iff_forall_notMem]
  exact ⟨fun h a ha hn => h a ⟨ha, hn⟩, fun h a ha => h a ha.1 ha.2⟩

theorem number_union (h : Disjoint A B) (n : Nat) :
    number f (A ∪ B) n = number f A n + number f B n := by
  rw [number, number, number, ← Set.encard_union_eq]
  · congr 1
    ext a
    simp only [Set.mem_ofPred_eq, Set.mem_union]
    tauto
  · exact h.mono (Set.sep_subset ..) (Set.sep_subset ..)

theorem number_image {h : α → β} (hinj : Function.Injective h) (hyield : ∀ a, g (h a) = f a)
    (A : Set α) (n : Nat) : number g (h '' A) n = number f A n := by
  rw [number, number, ← hinj.injOn.encard_image]
  congr 1
  ext b
  constructor
  · rintro ⟨⟨a, ha, rfl⟩, hn⟩
    exact ⟨a, ⟨ha, hyield a ▸ hn⟩, rfl⟩
  · rintro ⟨a, ⟨ha, hn⟩, rfl⟩
    exact ⟨⟨a, ha, rfl⟩, (hyield a).symm ▸ hn⟩

/-- A pair derives what its first member derives and then what its second one does. -/
theorem number_prod (A : Set α) (B : Set β) (n : Nat) :
    number (fun p : α × β => f p.1 ++ g p.2) (A ×ˢ B) n = convolve (number f A) (number g B) n := by
  rw [number, encard_eq_sum_fibers (k := fun p => extent (f p.1)) fun p _ => extent_mem_lengths _]
  refine Finset.sum_congr rfl fun i _ => ?_
  rw [encard_eq_sum_fibers (k := fun p => extent (g p.2)) fun p _ => extent_mem_lengths _,
    Finset.sum_filter]
  refine Finset.sum_congr rfl fun j _ => ?_
  split
  case isTrue hsum =>
    rw [number, number, ← Set.encard_prod]
    congr 1
    ext p
    simp only [Set.mem_ofPred_eq, Set.mem_prod, BitRange.extent_append]
    constructor
    · rintro ⟨⟨⟨⟨ha, hb⟩, -⟩, hi⟩, hj⟩
      exact ⟨⟨ha, hi⟩, hb, hj⟩
    · rintro ⟨⟨ha, hi⟩, hb, hj⟩
      exact ⟨⟨⟨⟨ha, hb⟩, by rw [hi, hj, hsum]⟩, hi⟩, hj⟩
  case isFalse hsum =>
    rw [Set.encard_eq_zero, Set.eq_empty_iff_forall_notMem]
    rintro p ⟨⟨⟨-, hn⟩, hi⟩, hj⟩
    rw [BitRange.extent_append, hi, hj] at hn
    exact hsum hn

/-- The members within a bound, length by length. -/
theorem encard_admitted (f : α → Bits) (A : Set α) (bound : BitRange) :
    {a ∈ A | bound.Admits (extent (f a))}.encard = ∑ n ∈ lengths with bound.Admits n,
      number f A n := by
  rw [encard_eq_sum_fibers (k := fun a => extent (f a)) (s := lengths.filter bound.Admits)]
  · refine Finset.sum_congr rfl fun n hn => congrArg Set.encard (Set.ext fun a => ?_)
    constructor
    · rintro ⟨⟨ha, -⟩, rfl⟩
      exact ⟨ha, rfl⟩
    · rintro ⟨ha, rfl⟩
      exact ⟨⟨ha, (Finset.mem_filter.1 hn).2⟩, rfl⟩
  · exact fun a ha => Finset.mem_filter.2 ⟨extent_mem_lengths _, ha.2⟩

end Number

/-! ## Numbers of derivations -/

namespace Derivation

variable {A : Set Derivation} {P Q : Nat → Prop} {n cap : Nat}

theorem number_leaf (L : Set Bits) (n : Nat) : number yield (leaf '' L) n = number id L n :=
  number_image (fun _ _ h => leaf.inj h) (fun _ => rfl) L n

theorem number_parts (S : Set (List Derivation)) (n : Nat) :
    number yield (parts '' S) n = number yieldAll S n :=
  number_image (fun _ _ h => parts.inj h) (fun _ => rfl) S n

theorem place_of_mem_choices {d : Derivation} {place : Nat} {As : List (Set Derivation)}
    (h : d ∈ choices place As) : ∃ i e, d = choice i e ∧ place ≤ i := by
  induction As generalizing place with
  | nil => exact absurd h (Set.notMem_empty d)
  | cons A As ih =>
    rcases h with ⟨e, -, rfl⟩ | h
    · exact ⟨place, e, rfl, le_rfl⟩
    · obtain ⟨i, e, hd, hle⟩ := ih h
      exact ⟨i, e, hd, Nat.le_of_succ_le hle⟩

theorem disjoint_choices (place : Nat) (A : Set Derivation) (As : List (Set Derivation)) :
    Disjoint (choice place '' A) (choices (place + 1) As) := by
  refine Set.disjoint_left.2 ?_
  rintro _ ⟨d, -, rfl⟩ hd
  obtain ⟨i, e, heq, hle⟩ := place_of_mem_choices hd
  rw [(choice.inj heq).1] at hle
  exact Nat.not_succ_le_self i hle

theorem number_choices (place : Nat) (As : List (Set Derivation)) (n : Nat) :
    number yield (choices place As) n = (As.map fun A => number yield A n).sum := by
  induction As generalizing place with
  | nil => exact number_eq_zero.2 fun d hd => absurd hd (Set.notMem_empty d)
  | cons A As ih =>
    rw [choices, number_union (disjoint_choices place A As), ih, List.map_cons, List.sum_cons,
      number_image (f := yield) (g := yield) (h := choice place) (fun _ _ h => (choice.inj h).2)
        fun _ => rfl]

/-- One derivation more, at the end. -/
theorem number_append_singleton (S : Set (List Derivation)) (A : Set Derivation) (n : Nat) :
    number yieldAll ((fun p => p.1 ++ [p.2]) '' (S ×ˢ A)) n =
      convolve (number yieldAll S) (number yield A) n := by
  rw [← number_prod]
  refine number_image ?_ ?_ _ _
  · intro p q heq
    obtain ⟨hfirst, hlast⟩ := List.append_inj' heq rfl
    exact Prod.ext hfirst (List.singleton_injective hlast)
  · intro p
    rw [yieldAll_append, yieldAll, yieldAll, List.append_nil]

theorem number_sequences_nil (n : Nat) :
    number yieldAll (sequences []) n = if n = 0 then 1 else 0 := by
  have hset : sequences [] = {[]} := Set.ext fun ds => List.forall₂_nil_right_iff
  rw [hset, number]
  split
  case isTrue hn =>
    rw [← Set.encard_singleton ([] : List Derivation)]
    congr 1
    ext ds
    refine and_iff_left_of_imp ?_
    rintro rfl
    rw [hn]
    rfl
  case isFalse hn =>
    rw [Set.encard_eq_zero, Set.eq_empty_iff_forall_notMem]
    rintro ds ⟨rfl, hlength⟩
    exact hn hlength.symm

theorem number_sequences_append (As : List (Set Derivation)) (A : Set Derivation) (n : Nat) :
    number yieldAll (sequences (As ++ [A])) n =
      convolve (number yieldAll (sequences As)) (number yield A) n := by
  rw [← number_append_singleton]
  congr 1
  ext ds
  constructor
  · intro h
    have hfirst := List.forall₂_take_append _ _ _ h
    have hlast := List.forall₂_drop_append _ _ _ h
    obtain ⟨d, hd, hdrop⟩ : ∃ d ∈ A, ds.drop As.length = [d] := by
      generalize ds.drop As.length = es at hlast
      cases hlast with
      | @cons d _ _ _ hd hnil =>
        cases hnil
        exact ⟨d, hd, rfl⟩
    refine ⟨(ds.take As.length, d), ⟨hfirst, hd⟩, ?_⟩
    show ds.take As.length ++ [d] = ds
    rw [← hdrop, List.take_append_drop]
  · rintro ⟨⟨es, e⟩, ⟨hes, he⟩, rfl⟩
    exact List.rel_append hes (.cons he .nil)

/-- Where nothing short can be continued, no continuation is short. -/
theorem number_sequences_eq_zero {As : List (Set Derivation)}
    (hzero : ∀ n ≤ cap, number yieldAll (sequences As) n = 0) (Bs : List (Set Derivation))
    (hn : n ≤ cap) : number yieldAll (sequences (As ++ Bs)) n = 0 := by
  induction Bs generalizing As with
  | nil => rw [List.append_nil, hzero n hn]
  | cons B Bs ih =>
    have happend : As ++ B :: Bs = As ++ [B] ++ Bs := by
      rw [List.append_assoc, List.singleton_append]
    rw [happend]
    refine ih fun m hm => ?_
    rw [number_sequences_append]
    exact convolve_eq_zero fun i hi j _ => by rw [hzero i (hi.trans hm), zero_mul]

theorem number_runs_succ (A : Set Derivation) (k n : Nat) :
    number yieldAll (runs A (· = k + 1)) n =
      convolve (number yieldAll (runs A (· = k))) (number yield A) n := by
  rw [← sequences_replicate, ← sequences_replicate, List.replicate_succ', number_sequences_append]

theorem number_runs_or (hPQ : ∀ k, P k → ¬ Q k) (A : Set Derivation) (n : Nat) :
    number yieldAll (runs A fun k => P k ∨ Q k) n =
      number yieldAll (runs A P) n + number yieldAll (runs A Q) n := by
  rw [← number_union]
  · congr 1
    ext ds
    exact or_and_right
  · exact Set.disjoint_left.2 fun ds hP hQ => hPQ _ hP.1 hQ.1

/-- Runs of one count more. -/
theorem number_runs_le_succ {k : Nat} (hk : P (k + 1)) (A : Set Derivation) (n : Nat) :
    number yieldAll (runs A fun j => j ≤ k + 1 ∧ P j) n =
      number yieldAll (runs A (· = k + 1)) n + number yieldAll (runs A fun j => j ≤ k ∧ P j) n := by
  have hsplit : (fun j => j ≤ k + 1 ∧ P j) = fun j => j = k + 1 ∨ j ≤ k ∧ P j := by
    funext j
    apply propext
    constructor
    · rintro ⟨hle, hj⟩
      exact (Nat.le_succ_iff.1 hle).symm.imp_right fun hle => ⟨hle, hj⟩
    · rintro (rfl | ⟨hle, hj⟩)
      · exact ⟨le_rfl, hk⟩
      · exact ⟨Nat.le_succ_of_le hle, hj⟩
  rw [hsplit, number_runs_or fun j h h' => by omega]

theorem runs_le_succ_of_not {k : Nat} (hk : ¬ P (k + 1)) (A : Set Derivation) :
    (runs A fun j => j ≤ k + 1 ∧ P j) = runs A fun j => j ≤ k ∧ P j := by
  congr 1
  funext j
  refine propext (and_congr_left fun hj => ⟨fun hle => ?_, Nat.le_succ_of_le⟩)
  refine (Nat.le_succ_iff.1 hle).resolve_right ?_
  rintro rfl
  exact hk hj

/-- Where no run of some count is short, none of a greater count is. -/
theorem number_runs_eq_zero {k : Nat} (hzero : ∀ n ≤ cap, number yieldAll (runs A (· = k)) n = 0)
    (hP : ∀ m, P m → k ≤ m) (hn : n ≤ cap) : number yieldAll (runs A P) n = 0 := by
  rw [number_eq_zero]
  rintro ds ⟨hcount, hds⟩ rfl
  have hle : extent (yieldAll (ds.take k)) ≤ extent (yieldAll ds) := by
    conv_rhs => rw [← List.take_append_drop k ds]
    rw [yieldAll_append]
    unfold extent
    rw [List.length_append]
    omega
  have htake : ds.take k ∈ runs A (· = k) :=
    ⟨(List.length_take_of_le (hP _ hcount)), fun d hd => hds d (List.mem_of_mem_take hd)⟩
  exact number_eq_zero.1 (hzero _ (hle.trans hn)) _ htake rfl

end Derivation

end Sigil
