import Sigil.Proofs.Complexity

namespace Sigil

def Only (L : Language Bool) (w : Bits) : Prop := w ∈ L ∧ ∀ v ∈ L, v = w

namespace Only

variable {L M : Language Bool} {w : Bits}

theorem mul (h : Only (L * M) w) : ∃ x y, Only L x ∧ Only M y ∧ w = x ++ y := by
  obtain ⟨hw, honly⟩ := h
  obtain ⟨x, hx, y, hy, rfl⟩ := Language.mem_mul.1 hw
  refine ⟨x, y, ⟨hx, fun v hv => ?_⟩, ⟨hy, fun v hv => ?_⟩, rfl⟩
  · exact List.append_cancel_right (honly _ (Language.append_mem_mul hv hy))
  · exact List.append_cancel_left (honly _ (Language.append_mem_mul hx hv))

theorem pow {n : Nat} (h : Only (L ^ n) w) (hn : 0 < n) :
    ∃ x, Only L x ∧ w = (List.replicate n x).flatten := by
  obtain ⟨m, rfl⟩ : ∃ m, n = m + 1 := ⟨n - 1, by omega⟩
  have hmul := h
  rw [pow_succ'] at hmul
  obtain ⟨x, -, hx, -, -⟩ := hmul.mul
  exact ⟨x, hx, (h.2 _ (replicate_mem_pow hx.1 (m + 1))).symm⟩

theorem encard_eq_one (h : Only L w) : Set.encard L = 1 :=
  Set.encard_eq_one.2 ⟨w, Set.ext fun v => ⟨h.2 v, fun hv => hv ▸ h.1⟩⟩

end Only

/-! ## Leaves -/

/-- A literal with one spelling has no byte that its flags apply to. -/
theorem Literal.length_variants_of_spellings {l : Literal} {lead : Fin 8}
    (hflush : l.IsPlain ∨ lead = 0) (h : l.spellings = 1) :
    (((l.flaggedBytes? lead).getD []).any fun b => (l.variants b).length != 1) = false := by
  unfold spellings at h
  rw [flaggedBytes?_of_flush hflush, List.any_eq_false]
  intro b hb
  cases hbytes : l.flaggedBytes? 0 with
  | none =>
    rw [hbytes] at hb
    exact absurd hb List.not_mem_nil
  | some bytes =>
    rw [hbytes] at h hb
    have hdvd := List.dvd_prod (List.mem_map_of_mem (f := fun b => (l.variants b).length) hb)
    have hone : (l.variants b).length = 1 := Nat.dvd_one.1 (h ▸ hdvd)
    simp [hone]

namespace Tree

variable {t : Tree Note} {w bits : Bits}

/-! ## Layers -/

theorem firstFixed?_eq {ts : List (Tree Note)} (hbounds : ∀ t ∈ ts, t.sample.Bounds t.language)
    (hts : ∀ t ∈ ts, ∀ w, Only t.language w → t.fixedBits? = some w)
    (h : Only (ts.map language).sum w) : firstFixed? ts = some w := by
  induction ts with
  | nil => exact absurd h.1 (Language.notMem_zero w)
  | cons t ts ih =>
    rw [List.map_cons, List.sum_cons] at h
    rw [firstFixed?]
    split
    case isTrue hdefined =>
      obtain ⟨v, hv, -⟩ := (hbounds t List.mem_cons_self).exists_high hdefined
      exact hts t List.mem_cons_self w ⟨h.2 v (Or.inl hv) ▸ hv, fun u hu => h.2 u (Or.inl hu)⟩
    case isFalse hdefined =>
      have hempty : ∀ v, v ∉ t.language :=
        fun v hv => hdefined ((hbounds t List.mem_cons_self).defined hv)
      exact ih (fun u hu => hbounds u (List.mem_cons_of_mem t hu)) (fun u hu =>
        hts u (List.mem_cons_of_mem t hu))
        ⟨h.1.resolve_left (hempty w), fun v hv => h.2 v (Or.inr hv)⟩

theorem fixedInOrder?_eq {ts : List (Tree Note)}
    (hts : ∀ t ∈ ts, ∀ w, Only t.language w → t.fixedBits? = some w)
    (h : Only (ts.map language).prod w) : fixedInOrder? ts = some w := by
  induction ts generalizing w with
  | nil => exact congrArg some (h.2 [] Language.nil_mem_one)
  | cons t ts ih =>
    rw [List.map_cons, List.prod_cons] at h
    obtain ⟨x, y, hx, hy, rfl⟩ := h.mul
    rw [fixedInOrder?, hts t List.mem_cons_self x hx,
      ih (fun s hs => hts s (List.mem_cons_of_mem t hs)) hy]
    rfl

/-- If there is one string only and more than one count is allowed, the string is empty. -/
theorem eq_nil_of_only_rep {L : Language Bool} {r : Repeat} (hr : r.AtMost r.min)
    (hcounts : ¬ (r.IsFixed ∧ 0 < r.min)) (h : Only {w | ∃ n, r.Allows n ∧ w ∈ L ^ n} w) :
    w = [] := by
  by_cases hmin : r.min = 0
  · have hempty : ([] : Bits) ∈ L ^ 0 := by
      rw [pow_zero]
      exact Language.nil_mem_one
    exact (h.2 [] ⟨0, ⟨hmin.le, atMost_zero r⟩, hempty⟩).symm
  · obtain ⟨n, hn, hw⟩ := h.1
    have hn0 := hn.1
    obtain ⟨m, rfl⟩ : ∃ m, n = m + 1 := ⟨n - 1, by omega⟩
    rw [pow_succ'] at hw
    obtain ⟨u, hu, -, -, -⟩ := Language.mem_mul.1 hw
    have hmore : r.Allows (r.min + 1) := by
      refine ⟨Nat.le_succ _, fun max hmax => ?_⟩
      have hle := hr max hmax
      have hne : max ≠ r.min := by
        rintro rfl
        exact hcounts ⟨hmax, by omega⟩
      omega
    -- one more application makes no difference, so it adds nothing
    have hleast := h.2 _ ⟨r.min, ⟨le_rfl, hr⟩, replicate_mem_pow hu r.min⟩
    have hnext := h.2 _ ⟨r.min + 1, hmore, replicate_mem_pow hu (r.min + 1)⟩
    have hlength : (List.replicate r.min u).flatten.length =
        (List.replicate (r.min + 1) u).flatten.length := by
      rw [hleast, hnext]
    simp only [List.length_flatten, List.map_replicate, List.sum_replicate, smul_eq_mul,
      Nat.add_mul, Nat.one_mul]
      at hlength
    have hnil : u = [] := List.length_eq_zero_iff.1 (by omega)
    rw [← hleast, hnil, List.flatten_replicate_nil]

/-- An only instance is read off the structure. -/
theorem fixedBits?_eq (hvalid : t.Valid) (hfaithful : t.Faithful) (hflush : t.Flush)
    (h : Only t.language w) : t.fixedBits? = some w := by
  induction t generalizing w with
  | lit n l =>
    have hspellings : l.spellings = 1 :=
      Nat.cast_eq_one.1 ((Literal.encard_spells hvalid.root.2).symm.trans h.encard_eq_one)
    have hplain : l.IsPlain ∨ n.lead = 0 := hflush.root
    rw [fixedBits?, Literal.length_variants_of_spellings hplain hspellings,
      if_neg Bool.false_ne_true, h.2 l.bits (Literal.spells_bits hvalid.root.2)]
  | any n bits =>
    have hone : 2 ^ bits = 1 := Nat.cast_eq_one.1 ((encard_any bits).symm.trans h.encard_eq_one)
    exact absurd hone (Nat.one_lt_two_pow (Nat.pos_iff_ne_zero.1 hvalid.root)).ne'
  | range n lo hi =>
    have hone : hi.toNat - lo.toNat + 1 = 1 :=
      Nat.cast_eq_one.1 ((encard_range hvalid.root).symm.trans h.encard_eq_one)
    have heq : lo = hi := UInt8.le_antisymm hvalid.root (UInt8.le_iff_toNat_le.2 (by omega))
    rw [fixedBits?, if_pos heq, h.2 (Bits.ofByte lo) ⟨lo, UInt8.le_refl lo, hvalid.root, rfl⟩]
  | anchor n a => exact congrArg some (h.2 [] Language.nil_mem_one)
  | alt n ts ih =>
    rw [language_node] at h
    exact firstFixed?_eq (fun t ht => Faithful.bounds (hfaithful.sub ht) (hvalid.sub ht))
      (fun t ht w => ih t ht (hvalid.sub ht) (hfaithful.sub ht) (hflush.sub ht)) h
  | seq n ts ih =>
    rw [language_node] at h
    exact fixedInOrder?_eq (fun t ht w => ih t ht (hvalid.sub ht) (hfaithful.sub ht)
      (hflush.sub ht)) h
  | rep n t r ih =>
    have ht : t ∈ (Kind.rep t r).subs := List.mem_singleton_self t
    rw [language_node] at h
    rw [fixedBits?]
    split
    case isTrue hfixed =>
      have honly : Only (t.language ^ r.min) w := by
        refine ⟨?_, fun v hv => h.2 v ⟨r.min, ⟨le_rfl, hvalid.root⟩, hv⟩⟩
        obtain ⟨n, hn, hw⟩ := h.1
        have heq : n = r.min := Nat.le_antisymm (hn.2 _ hfixed.1) hn.1
        rwa [heq] at hw
      obtain ⟨x, hx, rfl⟩ := honly.pow hfixed.2
      rw [ih (hvalid.sub ht) (hfaithful.sub ht) (hflush.sub ht) hx, Option.map_some]
    case isFalse hcounts => rw [eq_nil_of_only_rep hvalid.root hcounts h]
  | ctx n d t ih =>
    have ht : t ∈ (Kind.ctx d t).subs := List.mem_singleton_self t
    rw [language_node] at h
    exact ih (hvalid.sub ht) (hfaithful.sub ht) (hflush.sub ht) h

/-- One derivation leaves one instance. -/
theorem exists_only_of_isConstant (hvalid : t.Valid) (hfaithful : t.Faithful) (hflush : t.Flush)
    (hlengths : t.sample.high < inf ∨ t.Each fun s => s.kind.Representable) (h : t.IsConstant) :
    ∃ w, Only t.language w := by
  have hfull : BitRange.full.Defined := Nat.zero_le _
  have hexact := complexity_exact hvalid hfaithful hflush hfull
    (hlengths.imp_left (Nat.min_le_right ..).trans_lt)
  have hone : (Derivation.within t.derivations .full).encard = 1 := by
    rw [show t.complexity .full = 1 from h] at hexact
    exact (hexact.resolve_left (by decide)).symm.trans Nat.cast_one
  have hadmits : ∀ v : Bits, BitRange.full.Admits (Bits.extent v) :=
    fun v => ⟨Nat.zero_le _, Nat.min_le_right ..⟩
  obtain ⟨w, ⟨hw, -⟩, honly⟩ := existsUnique_of_encard_eq_one hone
  exact ⟨w, hw, fun v hv => honly v ⟨hv, hadmits v⟩⟩

/-- The instances of a constant are its bits. -/
theorem eq_of_constant? (hvalid : t.Valid) (hfaithful : t.Faithful) (hflush : t.Flush)
    (hhigh : t.sample.high < inf) (h : t.constant? = some bits) (hw : w ∈ t.language) :
    w = bits := by
  unfold constant? at h
  split at h
  case isTrue hconstant =>
    obtain ⟨v, honly⟩ := exists_only_of_isConstant hvalid hfaithful hflush (Or.inl hhigh) hconstant
    rw [honly.2 w hw]
    exact Option.some.inj ((fixedBits?_eq hvalid hfaithful hflush honly).symm.trans h)
  case isFalse => exact absurd h (by simp)

end Tree

end Sigil
