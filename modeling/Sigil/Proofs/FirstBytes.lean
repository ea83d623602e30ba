import Mathlib.Tactic.IntervalCases
import Sigil.Proofs.Lengths

namespace Sigil

namespace Literal

theorem eq_or_swapCase_of_toLower_eq {e a : UInt8} (h : Ascii.toLower e = Ascii.toLower a) :
    a = e ∨ Ascii.isLetter e = true ∧ a = Ascii.swapCase e := by
  have he := e.toNat_lt
  have ha := a.toNat_lt
  simp only [Ascii.toLower, Ascii.swapCase, Ascii.toUpper, Ascii.isLetter, Ascii.isLower,
    Ascii.isUpper, Bool.and_eq_true, Bool.or_eq_true, decide_eq_true_iff, UInt8.le_iff_toNat_le,
    ← UInt8.toNat_inj] at h ⊢
  split_ifs at h ⊢ <;> simp [UInt8.toNat_sub] at * <;> omega

theorem eq_or_swapDash {e a : UInt8} (he : Ascii.isDash e = true) (ha : Ascii.isDash a = true) :
    a = e ∨ a = Ascii.swapDash e := by
  simp only [Ascii.isDash, Bool.or_eq_true, beq_iff_eq] at he ha
  rcases he with rfl | rfl <;> rcases ha with rfl | rfl <;> decide

theorem mem_variants_of_accepts {l : Literal} {e a : UInt8} (h : l.accepts e a = true) :
    a ∈ l.variants e := by
  simp only [accepts, Bool.or_eq_true, Bool.and_eq_true, beq_iff_eq] at h
  rw [variants, List.mem_append, List.mem_cons]
  rcases h with (rfl | ⟨hnocase, hlower⟩) | ⟨⟨hdash, he⟩, ha⟩
  · exact Or.inl (Or.inl rfl)
  · rcases eq_or_swapCase_of_toLower_eq hlower with rfl | ⟨hletter, rfl⟩
    · exact Or.inl (Or.inl rfl)
    · simp [hnocase, hletter]
  · rcases eq_or_swapDash he ha with rfl | rfl
    · exact Or.inl (Or.inl rfl)
    · simp [hdash, he]

end Literal

theorem ByteSet.contains_foldl_insert (bytes : List UInt8) (s : ByteSet) (b : UInt8) :
    (bytes.foldl ByteSet.insert s).contains b = true ↔ s.contains b = true ∨ b ∈ bytes := by
  induction bytes generalizing s with
  | nil => simp
  | cons c bytes ih =>
    rw [List.foldl_cons, ih, ByteSet.contains_insert, Bool.or_eq_true, beq_iff_eq,
      List.mem_cons, or_assoc, eq_comm (a := c)]

def Bits.Leads (w : Bits) (b : UInt8) : Prop := w.take 8 <+: Bits.ofByte b

theorem Bits.leads_of_take_eq {w : Bits} {b : UInt8}
    (h : (ofByte b).take (min 8 w.length) = w.take (min 8 w.length)) : w.Leads b := by
  have htake : w.take 8 = w.take (min 8 w.length) := by
    rw [List.take_eq_take_iff]
    omega
  rw [Leads, htake, ← h]
  exact List.take_prefix ..

namespace Starts

/-- The strings of the language begin with bytes of `s`; if it holds the empty string, `s` says
so. -/
structure Covers (s : Starts) (L : Language Bool) : Prop where
  nullable : [] ∈ L → s.nullable = true
  contains : ∀ w ∈ L, w ≠ [] → ∀ b, Bits.Leads w b → s.bytes.contains b = true

theorem contains_ofLeadingBits (first b : UInt8) {width : Nat} (hw : 0 < width) :
    (ofLeadingBits first width).bytes.contains b = true ↔
      b.toNat / 2 ^ (8 - min width 8) = first.toNat / 2 ^ (8 - min width 8) := by
  have hmin : min width 8 ≠ 0 := by omega
  have hle : min width 8 ≤ 8 := Nat.min_le_right ..
  unfold ofLeadingBits
  split
  case h_1 h => exact absurd h hmin
  case h_2 =>
    rw [ByteSet.contains_ofRange, decide_eq_true_iff, UInt8.le_iff_toNat_le, UInt8.le_iff_toNat_le,
      UInt8.toNat_ofNat', UInt8.toNat_ofNat', Nat.one_shiftLeft]
    generalize min width 8 = n at hmin hle ⊢
    have hb := b.toNat_lt
    have hf := first.toNat_lt
    have hpos : 1 ≤ n := Nat.one_le_iff_ne_zero.2 hmin
    interval_cases n <;> omega

variable {s t : Starts} {L M : Language Bool}

theorem Covers.union (hs : s.Covers L) (ht : t.Covers M) : (s.union t).Covers (L + M) where
  nullable h := by
    rw [Starts.union, Bool.or_eq_true]
    exact h.imp hs.nullable ht.nullable
  contains w hw hne b hb := by
    rw [Starts.union, ByteSet.contains_union, Bool.or_eq_true]
    exact hw.imp (hs.contains w · hne b hb) (ht.contains w · hne b hb)

theorem Leads_append {x y : Bits} {b : UInt8} (h : Bits.Leads (x ++ y) b) : Bits.Leads x b := by
  refine List.IsPrefix.trans ?_ h
  rw [List.take_append]
  exact List.prefix_append ..

theorem Covers.andThen (hs : s.Covers L) (ht : t.Covers M) : (s.andThen t).Covers (L * M) where
  nullable h := by
    obtain ⟨x, hx, y, hy, hxy⟩ := Language.mem_mul.1 h
    obtain ⟨rfl, rfl⟩ := List.append_eq_nil_iff.1 hxy
    rw [Starts.andThen, if_pos (hs.nullable hx)]
    exact ht.nullable hy
  contains w hw hne b hb := by
    obtain ⟨x, hx, y, hy, rfl⟩ := Language.mem_mul.1 hw
    by_cases hxnil : x = []
    · subst hxnil
      rw [List.nil_append] at hne hb
      rw [Starts.andThen, if_pos (hs.nullable hx), ByteSet.contains_union, Bool.or_eq_true]
      exact Or.inr (ht.contains y hy hne b hb)
    · have hcontains := hs.contains x hx hxnil b (Leads_append hb)
      unfold Starts.andThen
      split
      · rw [ByteSet.contains_union, hcontains, Bool.true_or]
      · exact hcontains

theorem Covers.contains_pow (hs : s.Covers L) {n : Nat} {w : Bits} (hw : w ∈ L ^ n) (hne : w ≠ [])
    {b : UInt8} (hb : Bits.Leads w b) : s.bytes.contains b = true := by
  induction n generalizing w with
  | zero => exact absurd ((Language.mem_one w).1 (pow_zero L ▸ hw)) hne
  | succ n ih =>
    rw [pow_succ', Language.mem_mul] at hw
    obtain ⟨x, hx, y, hy, rfl⟩ := hw
    by_cases hxnil : x = []
    · subst hxnil
      rw [List.nil_append] at hne hb
      exact ih hy hne hb
    · exact hs.contains x hx hxnil b (Leads_append hb)

theorem Covers.rep (hs : s.Covers L) (counts : Repeat) :
    Covers { s with nullable := s.nullable || counts.min == 0 }
      (Kind.language (.rep L counts)) where
  nullable h := by
    obtain ⟨n, hn, hmem⟩ := h
    rw [Bool.or_eq_true, beq_iff_eq]
    by_cases hzero : n = 0
    · exact Or.inr (Nat.le_zero.1 (hzero ▸ hn.1))
    · exact Or.inl (hs.nullable (nil_mem_of_nil_mem_pow hzero hmem))
  contains w hw hne b hb := by
    obtain ⟨n, -, hmem⟩ := hw
    exact hs.contains_pow hmem hne hb

theorem covers_zero : never.Covers 0 where
  nullable h := absurd h (Language.notMem_zero _)
  contains w hw := absurd hw (Language.notMem_zero w)

theorem covers_one : onlyEmpty.Covers 1 where
  nullable _ := rfl
  contains w hw hne := absurd ((Language.mem_one w).1 hw) hne

theorem Covers.foldl_union {α : Type} {starts : α → Starts} {language : α → Language Bool}
    {subs : List α} (h : ∀ x ∈ subs, (starts x).Covers (language x)) (hs : s.Covers L) :
    ((subs.map starts).foldl Starts.union s).Covers (L + (subs.map language).sum) := by
  induction subs generalizing s L with
  | nil => simpa using hs
  | cons x subs ih =>
    rw [List.map_cons, List.map_cons, List.foldl_cons, List.sum_cons, ← add_assoc]
    exact ih (fun y hy => h y (List.mem_cons_of_mem x hy)) (hs.union (h x List.mem_cons_self))

theorem Covers.foldl_andThen {α : Type} {starts : α → Starts} {language : α → Language Bool}
    {subs : List α} (h : ∀ x ∈ subs, (starts x).Covers (language x)) (hs : s.Covers L) :
    ((subs.map starts).foldl Starts.andThen s).Covers (L * (subs.map language).prod) := by
  induction subs generalizing s L with
  | nil => simpa using hs
  | cons x subs ih =>
    rw [List.map_cons, List.map_cons, List.foldl_cons, List.prod_cons, ← mul_assoc]
    exact ih (fun y hy => h y (List.mem_cons_of_mem x hy)) (hs.andThen (h x List.mem_cons_self))

/-! ## Literals -/

theorem Leads_ofByte {a b : UInt8} (h : Bits.Leads (Bits.ofByte a) b) : a = b := by
  unfold Bits.Leads at h
  rw [List.take_of_length_le (Bits.length_ofByte a).le] at h
  exact Bits.ofByte_injective (h.eq_of_length (by rw [Bits.length_ofByte, Bits.length_ofByte]))

/-- A byte that goes on from a few bits has their number as its quotient. -/
theorem toNat_div_of_prefix {bits : Bits} {b : UInt8} (h : bits <+: Bits.ofByte b) :
    b.toNat / 2 ^ (8 - bits.length) = Bits.toNat bits := by
  obtain ⟨rest, hrest⟩ := h
  have hlen : rest.length = 8 - bits.length := by
    have hsum := congrArg List.length hrest
    rw [List.length_append, Bits.length_ofByte] at hsum
    omega
  have hlt := Bits.toNat_lt rest
  rw [← Bits.toNat_ofByte, ← hrest, Bits.toNat_append, hlen,
    Nat.mul_comm, Nat.mul_add_div (Nat.two_pow_pos _), Nat.div_eq_of_lt (hlen ▸ hlt), Nat.add_zero]

theorem contains_ofLeadingBits_leadingByte {bits : Bits} (hne : bits ≠ []) {b : UInt8}
    (h : bits.take 8 <+: Bits.ofByte b) :
    (ofLeadingBits (Bits.leadingByte (bits.take 8)) bits.length).bytes.contains b = true := by
  have hlen : (bits.take 8).length = min bits.length 8 := by rw [List.length_take, Nat.min_comm]
  have hle : (bits.take 8).length ≤ 8 := hlen ▸ Nat.min_le_right ..
  rw [contains_ofLeadingBits _ _ (List.length_pos_iff.2 hne), ← hlen, toNat_div_of_prefix h,
    Bits.toNat_leadingByte hle, Nat.mul_div_cancel _ (Nat.two_pow_pos _)]

theorem covers_literal {l : Literal} (hl : ¬ l.IsEmpty) (hflags : l.IsPlain ∨ l.bits.WholeBytes) :
    l.starts.Covers {w | l.Spells w} where
  nullable h := by
    have hlen := Literal.length_of_spells hflags h
    exact absurd (List.length_eq_zero_iff.1 hlen.symm) hl
  contains w hw hne b hb := by
    by_cases hplain : l.IsPlain
    · have hbits : w = l.bits := Literal.Spells.eq_bits hw hplain
      subst hbits
      have hfirst := contains_ofLeadingBits_leadingByte hne hb
      unfold Literal.starts
      dsimp only
      split
      · exact hfirst
      · exact (ByteSet.contains_foldl_insert ..).2 (Or.inl hfirst)
    · -- the first byte of an instance is, up to the flags, the first one of the literal
      have hwhole := hflags.resolve_left hplain
      obtain hnil | ⟨e, rest, hrest, -⟩ := hwhole.cases
      · exact absurd hnil hl
      have hshort : ¬ l.length < 8 := by
        simp [Literal.length, hrest]
      obtain ⟨bytes, hall, rfl⟩ := Literal.Spells.exists_bytes hw hplain
      rw [hrest, Bits.toBytes_ofByte_append] at hall
      obtain _ | ⟨haccepts, -⟩ := hall
      rw [Bits.ofBytes_cons] at hb
      have hfirst : Bits.leadingByte (l.bits.take 8) = e := by
        rw [hrest, List.take_left' (Bits.length_ofByte e), Bits.leadingByte_ofByte]
      unfold Literal.starts
      dsimp only
      rw [if_neg hshort, hfirst, ← Leads_ofByte (Leads_append hb)]
      exact (ByteSet.contains_foldl_insert ..).2 (Or.inr (Literal.mem_variants_of_accepts haccepts))

end Starts

/-- The first bytes of a layer's instances, from those of the sub-patterns. -/
theorem Kind.covers_starts {α : Type} {starts : α → Starts} {language : α → Language Bool}
    {k : Kind α} (hk : k.Valid) (h : ∀ s ∈ k.subs, (starts s).Covers (language s)) :
    (k.map starts).starts.Covers (k.map language).language := by
  cases k with
  | lit l => exact Starts.covers_literal hk.1 hk.2
  | any n =>
    constructor
    · intro hnil
      exact absurd hnil hk.ne
    · intro w _ _ b _
      exact ByteSet.contains_all b
  | range lo hi =>
    constructor
    · rintro ⟨c, -, -, hc⟩
      exact absurd (congrArg List.length hc) (by simp)
    · rintro w ⟨c, hlo, hhi, rfl⟩ - b hb
      rw [← Starts.Leads_ofByte hb]
      exact (ByteSet.contains_ofRange lo hi c).trans (decide_eq_true ⟨hlo, hhi⟩)
  | anchor a => exact Starts.covers_one
  | alt subs =>
    have hsum := Starts.Covers.foldl_union h Starts.covers_zero
    rwa [zero_add] at hsum
  | seq subs =>
    have hprod := Starts.Covers.foldl_andThen h Starts.covers_one
    rwa [one_mul] at hprod
  | rep s r => exact (h s (by simp [subs])).rep r
  | ctx d s => exact h s (by simp [subs])

namespace Tree

variable {ν : Type}

theorem covers_deduced {t : Tree ν} (ht : t.Valid) : t.deduced.starts.Covers t.language := by
  induction t using induct_subs with
  | node n k ih =>
    rw [deduced_starts, language_node]
    exact Kind.covers_starts ht.root fun s hs => ih s hs (ht.sub hs)

/-- A table made from the deduced starts skips no byte that an instance begins with. -/
theorem not_skips_deduced {t : Tree ν} (ht : t.Valid) {w : Bits} (hw : w ∈ t.language) {b : UInt8}
    (hb : Bits.Leads w b) : t.deduced.skips.skips b = false := by
  have hcovers := covers_deduced ht
  rw [deduced_skips, SkipTable.skips_ofStarts]
  by_cases hne : w = []
  · subst hne
    simp [hcovers.nullable hw]
  · simp [hcovers.contains w hw hne b hb]

/-- A table made from the deduced starts skips nothing where the empty string is an instance. -/
theorem isTrivial_deduced {t : Tree ν} (ht : t.Valid) (h : [] ∈ t.language) :
    t.deduced.starts.nullable = true ∧ t.deduced.skips.IsTrivial := by
  have hnullable := (covers_deduced ht).nullable h
  refine ⟨hnullable, ?_⟩
  rw [deduced_skips, SkipTable.ofStarts, if_pos hnullable]
  rfl

end Tree

end Sigil
