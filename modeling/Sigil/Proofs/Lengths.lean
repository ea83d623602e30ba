import Sigil.Proofs.Language
import Sigil.Summary

namespace Sigil

def Bits.extent (w : Bits) : Nat := min w.length inf

def Kind.Representable {α : Type} : Kind α → Prop
  | lit l => l.length ≤ inf
  | any bits => bits ≤ inf
  | _ => True

instance {α : Type} (k : Kind α) : Decidable k.Representable :=
  match k with
  | .lit l => inferInstanceAs (Decidable (l.length ≤ inf))
  | .any bits => inferInstanceAs (Decidable (bits ≤ inf))
  | .range .. | .anchor _ | .alt _ | .seq _ | .rep .. | .ctx .. => isTrue trivial

namespace BitRange

open Bits (extent)

theorem extent_append (x y : Bits) : extent (x ++ y) = satAdd (extent x) (extent y) := by
  simp only [extent, satAdd, List.length_append]
  omega

theorem satMul_extent (w : Bits) (n : Nat) : satMul (extent w) n = min (n * w.length) inf := by
  unfold satMul extent
  rcases Nat.eq_zero_or_pos n with rfl | hn
  · simp
  · rw [Nat.mul_comm n]
    rcases Nat.le_total w.length inf with h | h
    · rw [Nat.min_eq_left h]
    · have hlow : inf ≤ inf * n := Nat.le_mul_of_pos_right inf hn
      have hhigh : inf * n ≤ w.length * n := Nat.mul_le_mul_right n h
      rw [Nat.min_eq_right h, Nat.min_eq_right hlow, Nat.min_eq_right (hlow.trans hhigh)]

theorem extent_flatten_replicate (n : Nat) (w : Bits) :
    extent (List.replicate n w).flatten = satMul (extent w) n := by
  rw [satMul_extent, extent]
  simp

/-- The range is undefined and the language empty, or both bounds of the range are lengths of
strings of the language, and no string is shorter or longer. -/
inductive Bounds : BitRange → Language Bool → Prop where
  | empty : Bounds undefined 0
  | between {L : Language Bool} {u v : Bits} (hu : u ∈ L) (hv : v ∈ L)
      (within : ∀ w ∈ L, extent u ≤ extent w ∧ extent w ≤ extent v) : Bounds ⟨extent u, extent v⟩ L

theorem Bounds.of_attained {r : BitRange} {L : Language Bool} {u v : Bits} (hu : u ∈ L) (hv : v ∈ L)
    (hlow : extent u = r.low) (hhigh : extent v = r.high)
    (within : ∀ w ∈ L, r.low ≤ extent w ∧ extent w ≤ r.high) : r.Bounds L := by
  obtain ⟨low, high⟩ := r
  subst hlow hhigh
  exact Bounds.between hu hv within

theorem not_defined_undefined : ¬ undefined.Defined := by
  simp [Defined, undefined, inf]

namespace Bounds

variable {r s : BitRange} {L M : Language Bool} {w : Bits}

theorem defined (h : r.Bounds L) (hw : w ∈ L) : r.Defined := by
  obtain _ | ⟨-, -, hwithin⟩ := h
  · exact absurd hw (Language.notMem_zero w)
  · exact (hwithin w hw).1.trans (hwithin w hw).2

theorem low_le_extent (h : r.Bounds L) (hw : w ∈ L) : r.low ≤ extent w := by
  obtain _ | ⟨-, -, hwithin⟩ := h
  · exact absurd hw (Language.notMem_zero w)
  · exact (hwithin w hw).1

theorem extent_le_high (h : r.Bounds L) (hw : w ∈ L) : extent w ≤ r.high := by
  obtain _ | ⟨-, -, hwithin⟩ := h
  · exact absurd hw (Language.notMem_zero w)
  · exact (hwithin w hw).2

theorem low_le (h : r.Bounds L) (hw : w ∈ L) : r.low ≤ w.length :=
  (h.low_le_extent hw).trans (Nat.min_le_left ..)

theorem exists_low (h : r.Bounds L) (hr : r.Defined) : ∃ u ∈ L, extent u = r.low := by
  obtain _ | ⟨hu, -, -⟩ := h
  · exact absurd hr not_defined_undefined
  · exact ⟨_, hu, rfl⟩

theorem exists_high (h : r.Bounds L) (hr : r.Defined) : ∃ v ∈ L, extent v = r.high := by
  obtain _ | ⟨-, hv, -⟩ := h
  · exact absurd hr not_defined_undefined
  · exact ⟨_, hv, rfl⟩

/-- A language has one range of lengths. -/
theorem unique (hr : r.Bounds L) (hs : s.Bounds L) : r = s := by
  obtain _ | ⟨hu, hv, hwithin⟩ := hr
  · obtain _ | ⟨hu, -, -⟩ := hs
    · rfl
    · exact absurd hu (Language.notMem_zero _)
  · obtain _ | ⟨hu', hv', hwithin'⟩ := hs
    · exact absurd hu (Language.notMem_zero _)
    · have hlow := le_antisymm (hwithin _ hu').1 (hwithin' _ hu).1
      have hhigh := le_antisymm (hwithin' _ hv).2 (hwithin _ hv').2
      rw [hlow, hhigh]

theorem fixed {n : Nat} (hw : w ∈ L) (h : ∀ x ∈ L, x.length = n) :
    (fixed (min n inf)).Bounds L := by
  have hn : ∀ x ∈ L, extent x = min n inf := fun x hx => by rw [extent, h x hx]
  exact of_attained hw hw (hn w hw) (hn w hw) fun x hx => ⟨(hn x hx).ge, (hn x hx).le⟩

theorem hull (hr : r.Bounds L) (hs : s.Bounds M) : (r.hull s).Bounds (L + M) := by
  have hr' := hr
  have hs' := hs
  -- an undefined range belongs to the empty language, which adds nothing
  obtain _ | @⟨_, u', v', hu', hv', -⟩ := hs
  · rwa [BitRange.hull, if_pos not_defined_undefined, add_zero]
  obtain _ | @⟨_, u, v, hu, hv, -⟩ := hr
  · rwa [BitRange.hull, if_neg (not_not.2 (hs'.defined hu')),
      if_pos not_defined_undefined, zero_add]
  rw [BitRange.hull, if_neg (not_not.2 (hs'.defined hu')), if_neg (not_not.2 (hr'.defined hu))]
  obtain ⟨a, ha, hmin⟩ : ∃ a ∈ L + M, extent a = min (extent u) (extent u') := by
    rcases Nat.le_total (extent u) (extent u') with h | h
    · exact ⟨u, Or.inl hu, (Nat.min_eq_left h).symm⟩
    · exact ⟨u', Or.inr hu', (Nat.min_eq_right h).symm⟩
  obtain ⟨b, hb, hmax⟩ : ∃ b ∈ L + M, extent b = max (extent v) (extent v') := by
    rcases Nat.le_total (extent v) (extent v') with h | h
    · exact ⟨v', Or.inr hv', (Nat.max_eq_right h).symm⟩
    · exact ⟨v, Or.inl hv, (Nat.max_eq_left h).symm⟩
  apply of_attained ha hb hmin hmax
  intro w hw
  rcases hw with hw | hw
  · exact ⟨(Nat.min_le_left ..).trans (hr'.low_le_extent hw),
      (hr'.extent_le_high hw).trans (Nat.le_max_left ..)⟩
  · exact ⟨(Nat.min_le_right ..).trans (hs'.low_le_extent hw),
      (hs'.extent_le_high hw).trans (Nat.le_max_right ..)⟩

theorem satAdd_le_satAdd {a b c d : Nat} (h : a ≤ b) (h' : c ≤ d) : satAdd a c ≤ satAdd b d := by
  unfold satAdd
  omega

theorem concat (hr : r.Bounds L) (hs : s.Bounds M) : (r.concat s).Bounds (L * M) := by
  have hr' := hr
  have hs' := hs
  obtain _ | @⟨_, u, v, hu, hv, -⟩ := hr
  · rw [BitRange.concat, if_neg (fun h => not_defined_undefined h.1), zero_mul]
    exact empty
  obtain _ | @⟨_, u', v', hu', hv', -⟩ := hs
  · rw [BitRange.concat, if_neg (fun h => not_defined_undefined h.2), mul_zero]
    exact empty
  rw [BitRange.concat, if_pos ⟨hr'.defined hu, hs'.defined hu'⟩]
  apply of_attained (Language.append_mem_mul hu hu') (Language.append_mem_mul hv hv')
    (extent_append u u')
    (extent_append v v')
  intro w hw
  obtain ⟨x, hx, y, hy, rfl⟩ := Language.mem_mul.1 hw
  rw [extent_append]
  exact ⟨satAdd_le_satAdd (hr'.low_le_extent hx) (hs'.low_le_extent hy),
    satAdd_le_satAdd (hr'.extent_le_high hx) (hs'.extent_le_high hy)⟩

/-! ## Repetitions -/

theorem satMul_le_satMul {a b m n : Nat} (h : a ≤ b) (h' : m ≤ n) : satMul a m ≤ satMul b n := by
  have hmul := Nat.mul_le_mul h h'
  unfold satMul
  omega

theorem satMul_succ (a n : Nat) : satMul a (n + 1) = satAdd a (satMul a n) := by
  simp only [satMul, satAdd, Nat.mul_succ]
  omega

theorem extent_mem_pow (h : r.Bounds L) {n : Nat} (hw : w ∈ L ^ n) :
    satMul r.low n ≤ extent w ∧ extent w ≤ satMul r.high n := by
  induction n generalizing w with
  | zero =>
    rw [pow_zero, Language.mem_one] at hw
    subst hw
    simp [satMul, extent]
  | succ n ih =>
    rw [pow_succ', Language.mem_mul] at hw
    obtain ⟨x, hx, y, hy, rfl⟩ := hw
    rw [extent_append, satMul_succ, satMul_succ]
    exact ⟨satAdd_le_satAdd (h.low_le_extent hx) (ih hy).1,
      satAdd_le_satAdd (h.extent_le_high hx) (ih hy).2⟩

theorem rep_zero (counts : Repeat) :
    (Kind.sample (.rep undefined counts)).Bounds (Kind.language (.rep 0 counts)) := by
  have hpow : ∀ n, n ≠ 0 → (0 : Language Bool) ^ n = 0 := fun n hn => zero_pow hn
  simp only [Kind.sample, if_neg not_defined_undefined]
  split
  case isTrue hmin =>
    have hempty : ([] : Bits) ∈ Kind.language (.rep 0 counts) := by
      refine ⟨0, ⟨hmin.le, fun m _ => Nat.zero_le m⟩, ?_⟩
      rw [pow_zero]
      exact Language.nil_mem_one
    apply fixed (n := 0) hempty
    intro w hw
    obtain ⟨n, -, hw⟩ := hw
    by_cases hn : n = 0
    · rw [hn, pow_zero, Language.mem_one] at hw
      rw [hw, List.length_nil]
    · rw [hpow n hn] at hw
      exact absurd hw (Language.notMem_zero w)
  case isFalse hmin =>
    -- at least one application is asked for, and none has an instance
    have hzero : Kind.language (.rep 0 counts) = 0 := by
      apply Set.eq_empty_of_forall_notMem
      intro w hw
      obtain ⟨n, hn, hw⟩ := hw
      rw [hpow n (by have := hn.1; omega)] at hw
      exact Language.notMem_zero w hw
    rw [hzero]
    exact empty

/-- The greatest length is reached with the greatest count, or beyond all bounds without one. -/
theorem rep_high {counts : Repeat} (hcounts : counts.AtMost counts.min) {v : Bits} (hv : v ∈ L) :
    ∃ w ∈ Kind.language (.rep L counts), extent w =
      match counts.max with
      | some m => satMul (extent v) m
      | none => if extent v = 0 then 0 else inf := by
  cases hmax : counts.max with
  | some m =>
    have hallows : counts.Allows m := ⟨hcounts m hmax, fun m' hm' => by simp_all⟩
    exact ⟨_, ⟨m, hallows, replicate_mem_pow hv m⟩, extent_flatten_replicate m v⟩
  | none =>
    have hallows : counts.Allows (max counts.min inf) :=
      ⟨Nat.le_max_left .., fun m hm => by simp_all⟩
    refine ⟨_, ⟨_, hallows, replicate_mem_pow hv _⟩, ?_⟩
    rw [extent_flatten_replicate]
    by_cases hzero : extent v = 0
    · simp [hzero, satMul]
    · have hle : inf ≤ extent v * max counts.min inf :=
        (Nat.le_max_right ..).trans (Nat.le_mul_of_pos_left _ (Nat.pos_of_ne_zero hzero))
      rw [satMul, Nat.min_eq_right hle]
      simp [hzero]

theorem rep (h : r.Bounds L) {counts : Repeat} (hcounts : counts.AtMost counts.min) :
    (Kind.sample (.rep r counts)).Bounds (Kind.language (.rep L counts)) := by
  have h' := h
  obtain _ | @⟨_, u, v, hu, hv, -⟩ := h
  · exact rep_zero counts
  have hlow : (List.replicate counts.min u).flatten ∈ Kind.language (.rep L counts) :=
    ⟨counts.min, ⟨le_rfl, hcounts⟩, replicate_mem_pow hu counts.min⟩
  obtain ⟨x, hx, hhigh⟩ := rep_high hcounts hv
  simp only [Kind.sample, if_pos (h'.defined hu)]
  apply of_attained hlow hx (extent_flatten_replicate counts.min u) hhigh
  intro w hw
  obtain ⟨n, hn, hw⟩ := hw
  obtain ⟨hge, hle⟩ := h'.extent_mem_pow hw
  refine ⟨(satMul_le_satMul le_rfl hn.1).trans hge, hle.trans ?_⟩
  cases hmax : counts.max with
  | some m => exact satMul_le_satMul le_rfl (hn.2 m hmax)
  | none =>
    -- any number of empty strings is empty; otherwise the upper end is `inf`
    by_cases hzero : extent v = 0
    · simp [hzero, satMul]
    · simp [hzero, satMul_le_inf]

theorem foldl_hull {α : Type} {sample : α → BitRange} {language : α → Language Bool} {subs : List α}
    (h : ∀ s ∈ subs, (sample s).Bounds (language s)) (hr : r.Bounds L) :
    ((subs.map sample).foldl BitRange.hull r).Bounds (L + (subs.map language).sum) := by
  induction subs generalizing r L with
  | nil => simpa using hr
  | cons s subs ih =>
    rw [List.map_cons, List.map_cons, List.foldl_cons, List.sum_cons, ← add_assoc]
    exact ih (fun t ht => h t (List.mem_cons_of_mem s ht)) (hr.hull (h s List.mem_cons_self))

theorem foldl_concat {α : Type} {sample : α → BitRange} {language : α → Language Bool}
    {subs : List α} (h : ∀ s ∈ subs, (sample s).Bounds (language s)) (hr : r.Bounds L) :
    ((subs.map sample).foldl BitRange.concat r).Bounds (L * (subs.map language).prod) := by
  induction subs generalizing r L with
  | nil => simpa using hr
  | cons s subs ih =>
    rw [List.map_cons, List.map_cons, List.foldl_cons, List.prod_cons, ← mul_assoc]
    exact ih (fun t ht => h t (List.mem_cons_of_mem s ht)) (hr.concat (h s List.mem_cons_self))

theorem one : (BitRange.fixed 0).Bounds 1 :=
  fixed Language.nil_mem_one fun w hw => by rw [(Language.mem_one w).1 hw, List.length_nil]

end Bounds

end BitRange

open BitRange

/-- The lengths of a layer's instances, from those of the sub-patterns. -/
theorem Kind.bounds_sample {α : Type} {sample : α → BitRange} {language : α → Language Bool}
    {k : Kind α} (hk : k.Valid) (h : ∀ s ∈ k.subs, (sample s).Bounds (language s)) :
    (k.map sample).sample.Bounds (k.map language).language := by
  cases k with
  | lit l =>
    exact Bounds.fixed (Literal.spells_bits hk.2) fun w hw => Literal.length_of_spells hk.2 hw
  | any n => exact Bounds.fixed (List.length_replicate (a := false)) fun w hw => hw
  | range lo hi =>
    have hlo : Bits.ofByte lo ∈ Kind.language (.range lo hi) := ⟨lo, UInt8.le_refl lo, hk, rfl⟩
    apply Bounds.fixed (n := 8) hlo
    intro w hw
    obtain ⟨b, -, -, rfl⟩ := hw
    exact Bits.length_ofByte b
  | anchor a => exact Bounds.one
  | alt subs =>
    have hsum := Bounds.foldl_hull h Bounds.empty
    rwa [zero_add] at hsum
  | seq subs =>
    have hprod := Bounds.foldl_concat h Bounds.one
    rwa [one_mul] at hprod
  | rep s r => exact (h s (by simp [subs])).rep hk
  | ctx d s => exact h s (by simp [subs])

namespace Tree

variable {ν : Type}

def deduced (t : Tree ν) : Summary := t.fold Summary.ofKind

theorem deduced_node (n : ν) (k : Kind (Tree ν)) : (node n k).deduced = .ofKind (k.map deduced) :=
  fold_node ..

theorem deduced_sample (n : ν) (k : Kind (Tree ν)) :
    (node n k).deduced.sample = (k.map fun t => t.deduced.sample).sample := by
  rw [deduced_node]
  exact congrArg Kind.sample (Kind.map_map deduced (·.sample) k)

theorem deduced_starts (n : ν) (k : Kind (Tree ν)) :
    (node n k).deduced.starts = (k.map fun t => t.deduced.starts).starts := by
  rw [deduced_node]
  exact congrArg Kind.starts (Kind.map_map deduced (·.starts) k)

theorem deduced_skips (t : Tree ν) : t.deduced.skips = .ofStarts t.deduced.starts := by
  obtain ⟨n, k⟩ := t
  rw [deduced_node]
  rfl

theorem shape_deduced (t : Tree ν) : t.deduced.shape = t.shape := by
  induction t using induct_subs with
  | node n k ih =>
    rw [deduced_node, shape_node]
    exact congrArg (node ()) ((Kind.map_map deduced (·.shape) k).trans (Kind.map_congr ih))

/-- The shape alone decides what is deduced. -/
theorem deduced_shape (t : Tree ν) : t.shape.deduced = t.deduced := fold_shape ..

/-- The deduced range of lengths is exact. -/
theorem bounds_deduced {t : Tree ν} (ht : t.Valid) : t.deduced.sample.Bounds t.language := by
  induction t using induct_subs with
  | node n k ih =>
    rw [deduced_sample, language_node]
    exact Kind.bounds_sample ht.root fun s hs => ih s hs (ht.sub hs)

end Tree

end Sigil
