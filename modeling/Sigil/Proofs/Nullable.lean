import Sigil.Proofs.Matching

namespace Sigil

theorem BitRange.Bounds.nil_mem_iff {r : BitRange} {L : Language Bool} (h : r.Bounds L) :
    [] ∈ L ↔ r.Defined ∧ r.low = 0 := by
  constructor
  · exact fun hnil => ⟨h.defined hnil, Nat.le_zero.1 (h.low_le hnil)⟩
  · rintro ⟨hdefined, hlow⟩
    obtain ⟨u, hu, hextent⟩ := h.exists_low hdefined
    have hlength : u.length = 0 := by
      unfold Bits.extent inf at hextent
      omega
    rwa [List.length_eq_zero_iff.1 hlength] at hu

theorem nil_mem_prod {α : Type} {language : α → Language Bool} {subs : List α} :
    [] ∈ (subs.map language).prod ↔ ∀ s ∈ subs, [] ∈ language s := by
  induction subs with
  | nil => exact iff_of_true Language.nil_mem_one fun s hs => absurd hs List.not_mem_nil
  | cons s subs ih =>
    rw [List.map_cons, List.prod_cons, Language.mem_mul, List.forall_mem_cons, ← ih]
    constructor
    · rintro ⟨x, hx, y, hy, hxy⟩
      obtain ⟨rfl, rfl⟩ := List.append_eq_nil_iff.1 hxy
      exact ⟨hx, hy⟩
    · exact fun ⟨hs, hsubs⟩ => ⟨[], hs, [], hsubs, rfl⟩

/-! ## Starts -/

namespace Starts

variable {α : Type} {starts : α → Starts} {subs : List α}

theorem nullable_foldl_union {s : Starts} :
    ((subs.map starts).foldl union s).nullable = true ↔ s.nullable = true ∨
      ∃ t ∈ subs, (starts t).nullable = true := by
  induction subs generalizing s with
  | nil => simp
  | cons t subs ih =>
    rw [List.map_cons, List.foldl_cons, ih, union, Bool.or_eq_true, or_assoc]
    simp only [List.mem_cons, exists_eq_or_imp]

theorem nullable_foldl_andThen {s : Starts}
    (h : ((subs.map starts).foldl andThen s).nullable = true) :
    s.nullable = true ∧ ∀ t ∈ subs, (starts t).nullable = true := by
  induction subs generalizing s with
  | nil => exact ⟨h, fun t ht => absurd ht List.not_mem_nil⟩
  | cons t subs ih =>
    rw [List.map_cons, List.foldl_cons] at h
    obtain ⟨hs, hsubs⟩ := ih h
    unfold andThen at hs
    split at hs
    case isTrue hnullable => exact ⟨hnullable, List.forall_mem_cons.2 ⟨hs, hsubs⟩⟩
    case isFalse hnot => exact absurd hs hnot

theorem nullable_ofLeadingBits (first : UInt8) {width : Nat} (hwidth : 0 < width) :
    (ofLeadingBits first width).nullable = false := by
  unfold ofLeadingBits
  split
  case h_1 h => exact absurd h (by omega)
  case h_2 => rfl

end Starts

theorem Literal.nullable_starts {l : Literal} (hl : ¬ l.IsEmpty) : l.starts.nullable = false := by
  have hplain := Starts.nullable_ofLeadingBits (Bits.leadingByte (l.bits.take 8))
    (List.length_pos_iff.2 hl)
  unfold starts
  dsimp only
  split
  · exact hplain
  · exact hplain

/-- A layer that is known to be nullable has the empty instance, if its sub-patterns do. -/
theorem Kind.nil_mem_of_nullable {α : Type} {starts : α → Starts} {language : α → Language Bool}
    {k : Kind α} (hk : k.Valid) (h : ∀ s ∈ k.subs, (starts s).nullable = true → [] ∈ language s)
    (hnullable : (k.map starts).starts.nullable = true) : [] ∈ (k.map language).language := by
  cases k with
  | lit l => exact absurd (hnullable.symm.trans (Literal.nullable_starts hk.1)) Bool.noConfusion
  | any n => exact absurd hnullable Bool.false_ne_true
  | range lo hi => exact absurd hnullable Bool.false_ne_true
  | anchor a => exact Language.nil_mem_one
  | alt subs =>
    rcases Starts.nullable_foldl_union.1 hnullable with hnever | ⟨s, hs, hsub⟩
    · exact absurd hnever Bool.false_ne_true
    · exact mem_sum_map.2 ⟨s, hs, h s hs hsub⟩
  | seq subs =>
    exact nil_mem_prod.2 fun s hs => h s hs ((Starts.nullable_foldl_andThen hnullable).2 s hs)
  | rep s r =>
    rcases Bool.or_eq_true .. ▸ hnullable with hsub | hmin
    · have hpow := replicate_mem_pow (h s (List.mem_singleton_self s) hsub) r.min
      rw [List.flatten_replicate_nil] at hpow
      exact ⟨r.min, ⟨le_rfl, hk⟩, hpow⟩
    · refine ⟨0, ⟨(beq_iff_eq.1 hmin).le, fun m _ => Nat.zero_le m⟩, ?_⟩
      rw [pow_zero]
      exact Language.nil_mem_one
  | ctx d s => exact h s (List.mem_singleton_self s) hnullable

/-! ## Where nothing can fail -/

section

variable {limit : Nat} {step : Nat → Option Nat}

/-- Each application moves towards the limit, until one stays and counts for all that are needed. -/
theorem min_le_greedy_of_isSome {r : Repeat} (hr : r.AtMost r.min) (hforward : Forward limit step)
    (h : ∀ pos ≤ limit, (step pos).isSome = true) {fuel pos : Nat} (count : Nat)
    (hpos : pos ≤ limit) (hfuel : limit - pos < fuel) :
    r.min ≤ (greedy step r fuel pos count).2 := by
  induction fuel generalizing pos count with
  | zero => exact absurd hfuel (Nat.not_lt_zero _)
  | succ fuel ih =>
    unfold greedy
    split
    case isTrue hmax =>
      obtain ⟨m, hm, hle⟩ := (Option.any_eq_true ..).1 hmax
      exact (hr m hm).trans (of_decide_eq_true hle)
    case isFalse =>
      obtain ⟨stop, hstop⟩ := Option.isSome_iff_exists.1 (h pos hpos)
      obtain ⟨hle, hlimit⟩ := hforward pos stop hpos hstop
      rw [hstop]
      dsimp only
      split
      case isTrue => exact Nat.le_max_right ..
      case isFalse hmoved => exact ih (count + 1) hlimit (by omega)

theorem isSome_foldlM {α : Type} {step : α → Nat → Option Nat} {subs : List α}
    (hforward : ∀ s ∈ subs, Forward limit (step s))
    (h : ∀ s ∈ subs, ∀ pos ≤ limit, (step s pos).isSome = true) {pos : Nat} (hpos : pos ≤ limit) :
    (subs.foldlM (fun pos s => step s pos) pos).isSome = true := by
  induction subs generalizing pos with
  | nil => rfl
  | cons s subs ih =>
    obtain ⟨stop, hstop⟩ := Option.isSome_iff_exists.1 (h s List.mem_cons_self pos hpos)
    rw [List.foldlM_cons, hstop]
    exact ih (fun t ht => hforward t (List.mem_cons_of_mem s ht)) (fun t ht =>
      h t (List.mem_cons_of_mem s ht))
      (hforward s List.mem_cons_self pos stop hpos hstop).2

/-- A layer that has the empty instance and is no anchor matches everywhere, if its sub-patterns
with the empty instance do. -/
theorem Kind.isSome_stopAt {α : Type} {data : Buffer} {step : α → Nat → Option Nat}
    {language : α → Language Bool} {k : Kind α} (hk : k.Valid) (hanchor : ∀ a, k ≠ .anchor a)
    (hforward : ∀ s ∈ k.subs, Forward limit (step s))
    (h : ∀ s ∈ k.subs, [] ∈ language s → ∀ pos ≤ limit, (step s pos).isSome = true)
    (hnil : [] ∈ (k.map language).language) {pos : Nat} (hpos : pos ≤ limit) :
    ((k.map step).stopAt data limit pos).isSome = true := by
  cases k with
  | lit l => exact absurd (List.length_eq_zero_iff.1 (Literal.length_of_spells hk.2 hnil).symm) hk.1
  | any n => exact absurd hnil hk.ne
  | range lo hi =>
    obtain ⟨b, -, -, hb⟩ := hnil
    exact absurd (congrArg List.length hb) (by rw [Bits.length_ofByte]; decide)
  | anchor a => exact absurd rfl (hanchor a)
  | alt subs =>
    obtain ⟨s, hs, hmem⟩ := mem_sum_map.1 hnil
    simp only [map, stopAt, List.findSome?_map, List.findSome?_isSome_iff]
    exact ⟨s, hs, h s hs hmem pos hpos⟩
  | seq subs =>
    simp only [map, stopAt, List.foldlM_map]
    exact isSome_foldlM hforward (fun s hs => h s hs (nil_mem_prod.1 hnil s hs)) hpos
  | rep s r =>
    have hs : s ∈ (Kind.rep s r).subs := List.mem_singleton_self s
    obtain ⟨n, hn, hpow⟩ := hnil
    have hmin : r.min ≤ (greedy (step s) r (limit - pos + 1) pos 0).2 := by
      by_cases hzero : n = 0
      · exact (hzero ▸ hn.1).trans (Nat.zero_le _)
      · exact min_le_greedy_of_isSome hk (hforward s hs)
          (h s hs (nil_mem_of_nil_mem_pow hzero hpow)) 0 hpos
          (Nat.lt_succ_self _)
    simp only [map, stopAt, plainRepeat, if_pos hmin, Option.isSome_some]
  | ctx d s => exact h s (List.mem_singleton_self s) hnil pos hpos

end

/-! ## Trees -/

namespace Tree

variable {ν : Type} {t : Tree ν} {data : Buffer} {limit k : Nat}

theorem nullable_deduced_iff (ht : t.Valid) :
    t.deduced.starts.nullable = true ↔ [] ∈ t.language := by
  refine ⟨fun hnullable => ?_, (covers_deduced ht).nullable⟩
  induction t using induct_subs with
  | node n k ih =>
    rw [deduced_starts] at hnullable
    rw [language_node]
    exact Kind.nil_mem_of_nullable ht.root (fun s hs => ih s hs (ht.sub hs)) hnullable

/-- No node of the tree is an anchor. -/
def Unanchored (t : Tree ν) : Prop := t.Each fun s => ∀ a, s.kind ≠ .anchor a

/-- A nullable tree without anchors never fails. -/
theorem isSome_plainAt (ht : t.Valid) (hanchors : t.Unanchored) (hlimit : limit ≤ data.bitSize)
    (hnil : [] ∈ t.language) {pos : Nat} (hpos : pos ≤ limit) :
    (t.plainAt data limit pos).isSome = true := by
  induction t using induct_subs generalizing pos with
  | node n k ih =>
    rw [language_node] at hnil
    rw [plainAt_node]
    exact Kind.isSome_stopAt ht.root hanchors.root (fun s hs =>
      (reads_plainAt (ht.sub hs) hlimit).forward)
      (fun s hs hmem pos hpos => ih s hs (ht.sub hs) (hanchors.sub hs) hmem hpos) hnil hpos

theorem plainHit_self (ht : t.Valid) (hanchors : t.Unanchored) (hk : k ≤ data.bitSize) :
    t.plainHit data k k = if t.deduced.starts.nullable then some ⟨k, 0⟩ else none := by
  unfold plainHit
  split
  case isTrue hnullable =>
    have hnil := (nullable_deduced_iff ht).1 hnullable
    obtain ⟨stop, hstop⟩ := Option.isSome_iff_exists.1 (isSome_plainAt ht hanchors hk hnil le_rfl)
    obtain ⟨hle, hge⟩ := (reads_plainAt ht hk).forward k stop le_rfl hstop
    rw [hstop, le_antisymm hge hle, Option.map_some, Hit.between, Nat.sub_self]
  case isFalse hnot =>
    rw [Option.map_eq_none_iff, Option.eq_none_iff_forall_ne_some]
    intro stop hstop
    -- what matches before the limit is an instance of no bits
    obtain ⟨hle, w, hw, hsum, -⟩ := reads_plainAt ht hk k stop le_rfl hstop
    have hlength : w.length = 0 := by omega
    rw [List.length_eq_zero_iff.1 hlength] at hw
    exact hnot ((nullable_deduced_iff ht).2 hw)

/-- In an empty region, a nullable tree matches the empty string, and no other tree matches. There
is no byte in it that could be passed over. -/
theorem siftedIn_empty (ht : t.Valid) (hanchors : t.Unanchored) (hk : k ≤ data.bitSize)
    (table : SkipTable) (mode : MatchMode) :
    t.siftedIn table data ⟨k, k⟩ mode =
      if t.deduced.starts.nullable then some ⟨k, 0⟩ else none := by
  have hhit := plainHit_self ht hanchors hk
  have hregion : ¬ (¬ (⟨k, k⟩ : BitRange).Defined ∨ data.bitSize < k) :=
    fun h => h.elim (fun hnot => hnot le_rfl) (Nat.not_lt.2 hk)
  have hstays : ¬ table.Passes data k k := fun hpasses => lt_irrefl _ hpasses.2.1
  unfold siftedIn
  dsimp only
  rw [if_neg hregion, Nat.min_eq_left hk]
  cases mode with
  | anchored => exact hhit
  | full =>
    dsimp only
    rw [hhit]
    split
    · rw [Option.filter_some, Nat.add_zero, beq_self_eq_true, if_pos rfl]
    · rfl
  | search =>
    dsimp only
    rw [Nat.sub_self, Nat.zero_div, List.range'_one, List.findSome?_singleton, SkipTable.sift,
      if_neg hstays, hhit]

/-- A nullable tree matches at the start of every region that is not past the end of the buffer. -/
theorem exists_siftedIn (ht : t.Valid) (hanchors : t.Unanchored) (hnil : [] ∈ t.language)
    {table : SkipTable} (htable : table.IsTrivial) {region : BitRange} (hregion : region.Defined)
    (hlow : region.low ≤ data.bitSize) {mode : MatchMode} (hmode : mode ≠ .full) :
    ∃ hit, t.siftedIn table data region mode = some hit ∧ hit.offset = region.low := by
  have hlimit : region.low ≤ min region.high data.bitSize := Nat.le_min.2 ⟨hregion, hlow⟩
  obtain ⟨stop, hstop⟩ := Option.isSome_iff_exists.1
    (isSome_plainAt ht hanchors (Nat.min_le_right region.high data.bitSize) hnil hlimit)
  have hhit : t.plainHit data (min region.high data.bitSize) region.low =
      some (Hit.between region.low stop) := by
    rw [plainHit, hstop, Option.map_some]
  have hstays : ¬ table.Passes data (min region.high data.bitSize) region.low := by
    rintro ⟨-, -, hskips⟩
    rw [SkipTable.skips_of_isTrivial htable] at hskips
    exact absurd hskips Bool.false_ne_true
  unfold siftedIn
  dsimp only
  rw [if_neg fun h => h.elim (fun hnot => hnot hregion) (Nat.not_lt.2 hlow)]
  refine ⟨Hit.between region.low stop, ?_, rfl⟩
  cases mode with
  | anchored => exact hhit
  | full => exact absurd rfl hmode
  | search =>
    -- the first offset that is tried is that of the region
    dsimp only
    rw [List.range'_succ, List.findSome?_cons, SkipTable.sift, if_neg hstays, hhit]

/-! ## As literals are compared -/

theorem Unanchored.compared {t : Tree Note} (h : t.Unanchored) : t.compared.Unanchored := by
  induction t using induct_subs with
  | node n k ih =>
    rw [compared_node]
    refine Each.node (fun a hanchor => ?_) fun s hs => ?_
    · cases k with
      | anchor b => exact h.root b rfl
      | _ => cases hanchor
    · rw [Kind.subs_map, Kind.subs_compared] at hs
      obtain ⟨u, hu, rfl⟩ := List.mem_map.1 hs
      exact ih u hu (h.sub hu)

theorem nullable_iff_sample (ht : t.Valid) :
    t.deduced.starts.nullable = true ↔ t.deduced.sample.Defined ∧ t.deduced.sample.low = 0 := by
  rw [nullable_deduced_iff ht, (bounds_deduced ht).nil_mem_iff]

/-- Whether a tree is nullable does not depend on how its literals are stored. -/
theorem nullable_compared {t : Tree Note} (ht : t.Valid) :
    t.compared.deduced.starts.nullable = t.deduced.starts.nullable := by
  rw [Bool.eq_iff_iff, nullable_iff_sample (valid_compared ht), nullable_iff_sample ht,
    sample_compared ht]

end Tree

end Sigil
