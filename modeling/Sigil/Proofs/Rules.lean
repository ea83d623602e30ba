import Sigil.Proofs.Meaning

namespace Sigil

/-! ## Sets of bytes -/

namespace ByteSet

def covered (runs : List (UInt8 × UInt8)) (b : UInt8) : Prop := ∃ run ∈ runs, run.1 ≤ b ∧ b ≤ run.2

theorem covered_cons (run : UInt8 × UInt8) (runs : List (UInt8 × UInt8)) (b : UInt8) :
    covered (run :: runs) b ↔ (run.1 ≤ b ∧ b ≤ run.2) ∨ covered runs b := by
  simp [covered]

theorem covered_extendRuns {runs : List (UInt8 × UInt8)} (hruns : ∀ run ∈ runs, run.1 ≤ run.2)
    (byte : UInt8) :
    (∀ run ∈ extendRuns runs byte, run.1 ≤ run.2) ∧
      ∀ b, covered (extendRuns runs byte) b ↔ covered runs b ∨ b = byte := by
  have hself : ∀ b, byte ≤ b ∧ b ≤ byte ↔ b = byte := by
    intro b
    rw [← UInt8.toNat_inj, UInt8.le_iff_toNat_le, UInt8.le_iff_toNat_le]
    omega
  unfold extendRuns
  split
  case h_1 first last rest =>
    have hfirst := hruns (first, last) List.mem_cons_self
    rw [UInt8.le_iff_toNat_le] at hfirst
    dsimp only at hfirst
    split
    case isTrue hnext =>
      -- the byte follows the last run and takes its end over
      constructor
      · intro run hrun
        rcases List.mem_cons.1 hrun with rfl | hrun
        · rw [UInt8.le_iff_toNat_le]
          dsimp only
          omega
        · exact hruns run (List.mem_cons_of_mem _ hrun)
      · intro b
        have hb : first ≤ b ∧ b ≤ byte ↔ (first ≤ b ∧ b ≤ last) ∨ b = byte := by
          rw [← UInt8.toNat_inj, UInt8.le_iff_toNat_le, UInt8.le_iff_toNat_le,
            UInt8.le_iff_toNat_le]
          omega
        rw [covered_cons, covered_cons, hb]
        exact or_right_comm
    case isFalse =>
      -- the byte is a run of its own
      constructor
      · intro run hrun
        rcases List.mem_cons.1 hrun with rfl | hrun
        · exact UInt8.le_refl _
        · exact hruns run hrun
      · intro b
        rw [covered_cons, hself, or_comm]
  case h_2 => simp [covered, hself]

theorem covered_foldl (bytes : List UInt8) {runs : List (UInt8 × UInt8)}
    (hruns : ∀ run ∈ runs, run.1 ≤ run.2) :
    (∀ run ∈ bytes.foldl extendRuns runs, run.1 ≤ run.2) ∧
      ∀ b, covered (bytes.foldl extendRuns runs) b ↔ covered runs b ∨ b ∈ bytes := by
  induction bytes generalizing runs with
  | nil => simpa using hruns
  | cons byte bytes ih =>
    obtain ⟨hvalid, hcovered⟩ := covered_extendRuns hruns byte
    obtain ⟨hvalid', hcovered'⟩ := ih hvalid
    refine ⟨hvalid', ?_⟩
    intro b
    rw [List.foldl_cons, hcovered', hcovered, List.mem_cons, or_assoc]

/-- A set with one run is the range from its first to its last byte. -/
theorem eq_range_of_runs {s : ByteSet} {lo hi : UInt8} (h : s.runs = [(lo, hi)]) :
    lo ≤ hi ∧ ∀ b, s.contains b = true ↔ lo ≤ b ∧ b ≤ hi := by
  have hfold : s.toList.foldl extendRuns [] = [(lo, hi)] := List.reverse_eq_iff.1 h
  obtain ⟨hvalid, hcovered⟩ := covered_foldl s.toList (List.forall_mem_nil _)
  rw [hfold] at hvalid hcovered
  refine ⟨hvalid _ (List.mem_singleton_self _), ?_⟩
  intro b
  have hb := hcovered b
  simp only [covered, List.mem_singleton, exists_eq_left, List.not_mem_nil, false_and, exists_false,
    false_or, mem_toList] at hb
  exact hb.symm

end ByteSet

namespace Meaning

def ofBytes (s : ByteSet) : Meaning where
  language := {w | ∃ b, s.contains b = true ∧ w = Bits.ofByte b}
  stopAt data limit pos :=
    if pos + 8 ≤ min limit data.bitSize ∧ (data.byteAt? pos).any s.contains then some (pos + 8)
    else none

theorem ofBytes_congr {s t : ByteSet} (h : ∀ b, s.contains b = t.contains b) :
    ofBytes s = ofBytes t := by
  have hcontains : s.contains = t.contains := funext h
  unfold ofBytes
  rw [hcontains]

theorem ofBytes_empty : ofBytes .empty = 0 := by
  apply ext_apply
  · apply Set.eq_empty_of_forall_notMem
    rintro w ⟨b, hb, -⟩
    rw [ByteSet.contains_empty] at hb
    exact Bool.false_ne_true hb
  · intro data limit pos
    have hnone : (data.byteAt? pos).any ByteSet.empty.contains = false := by
      rw [Option.any_eq_false]
      intro b _
      rw [ByteSet.contains_empty]
    simp only [ofBytes, hnone, Bool.false_eq_true, and_false, if_false]
    rfl

theorem ofBytes_union (s t : ByteSet) : ofBytes (s.union t) = ofBytes s + ofBytes t := by
  apply ext_apply
  · ext w
    show (∃ b, _) ↔ (∃ b, _) ∨ (∃ b, _)
    simp only [ByteSet.contains_union, Bool.or_eq_true, or_and_right, exists_or]
  · intro data limit pos
    rw [add_stopAt]
    simp only [ofBytes]
    cases data.byteAt? pos with
    | none => simp
    | some b =>
      simp only [Option.any_some, ByteSet.contains_union, Bool.or_eq_true]
      by_cases hroom : pos + 8 ≤ min limit data.bitSize <;> by_cases hs : s.contains b = true <;>
        simp [hroom, hs]

theorem range_eq_ofBytes (lo hi : UInt8) :
    (Kind.range lo hi).meaning = ofBytes (.ofRange lo hi) := by
  apply ext_apply
  · ext w
    show (∃ b, lo ≤ b ∧ b ≤ hi ∧ w = Bits.ofByte b) ↔ ∃ b, _
    simp only [ByteSet.contains_ofRange, decide_eq_true_iff, and_assoc]
  · intro data limit pos
    have hrange : (ByteSet.ofRange lo hi).contains = fun b => decide (lo ≤ b ∧ b ≤ hi) :=
      funext fun b => ByteSet.contains_ofRange lo hi b
    simp only [Kind.meaning, Kind.map, Kind.stopAt, ofBytes, hrange]

theorem any_eq_ofBytes : (Kind.any 8).meaning = ofBytes .all := by
  apply ext_apply
  · ext w
    show w.length = 8 ↔ ∃ b, _
    constructor
    · intro hw
      exact ⟨Bits.leadingByte w, ByteSet.contains_all _, (Bits.ofByte_leadingByte hw).symm⟩
    · rintro ⟨b, -, rfl⟩
      exact Bits.length_ofByte b
  · intro data limit pos
    simp only [Kind.meaning, Kind.map, Kind.stopAt, ofBytes]
    by_cases hroom : pos + 8 ≤ min limit data.bitSize
    · obtain ⟨b, hb⟩ := Buffer.exists_byteAt? (hroom.trans (Nat.min_le_right ..))
      rw [if_pos hroom, hb, Option.any_some, ByteSet.contains_all, if_pos ⟨hroom, rfl⟩]
    · rw [if_neg hroom, if_neg fun h => hroom h.1]

/-- A plain literal of eight bits matches one byte. -/
theorem lit_eq_ofBytes {l : Literal} (hplain : l.IsPlain) (hlength : l.length = 8) :
    (Kind.lit l).meaning = ofBytes (ByteSet.empty.insert (Bits.leadingByte l.bits)) := by
  have hbits : l.bits = Bits.ofByte (Bits.leadingByte l.bits) :=
    (Bits.ofByte_leadingByte hlength).symm
  have hcontains : ∀ b, (ByteSet.empty.insert (Bits.leadingByte l.bits)).contains b = true ↔
      b = Bits.leadingByte l.bits := by
    intro b
    rw [ByteSet.contains_insert, ByteSet.contains_empty, Bool.false_or, beq_iff_eq, eq_comm]
  apply ext_apply
  · ext w
    show l.Spells w ↔ ∃ b, _
    simp only [hcontains, exists_eq_left, ← hbits]
    rw [Literal.Spells, if_pos hplain]
  · intro data limit pos
    have hoccurs : l.occursAt 0 data pos (min limit data.bitSize) = true ↔
        pos + 8 ≤ min limit data.bitSize ∧
          (data.byteAt? pos).any (ByteSet.empty.insert (Bits.leadingByte l.bits)).contains =
            true := by
      simp only [Literal.occursAt, if_pos hplain, hlength, Bool.and_eq_true, decide_eq_true_iff,
        Option.any_eq_true, hcontains, exists_eq_right]
      rw [Buffer.byteAt?_eq_some_iff, ← hbits]
      exact ⟨fun h => ⟨h.1.1, h.2⟩, fun h => ⟨⟨h.1, h.1.trans (Nat.min_le_right ..)⟩, h.2⟩⟩
    simp only [Kind.meaning, Kind.map, Kind.stopAt, ofBytes, hoccurs, hlength]

/-- A range of all bytes matches any byte. -/
theorem fullRange_eq_any : (Kind.range 0 255).meaning = (Kind.any 8).meaning := by
  rw [range_eq_ofBytes, any_eq_ofBytes]
  apply ofBytes_congr
  intro b
  rw [ByteSet.contains_ofRange, ByteSet.contains_all, decide_eq_true_iff, UInt8.le_iff_toNat_le,
    UInt8.le_iff_toNat_le]
  exact ⟨Nat.zero_le _, Nat.le_of_lt_succ b.toNat_lt⟩

/-! ## Repeated alternatives -/

theorem sum_distinct {α : Type} [DecidableEq α] (f : α → Meaning) (xs seen : List α) :
    ((xs.foldl (fun seen x => if x ∈ seen then seen else x :: seen) seen).reverse.map f).sum =
      (seen.reverse.map f).sum + (xs.map f).sum := by
  induction xs generalizing seen with
  | nil => exact (add_zero _).symm
  | cons x xs ih =>
    rw [List.foldl_cons, ih, List.map_cons, List.sum_cons, ← add_assoc]
    split
    case isTrue hx =>
      rw [sum_add_of_mem (List.mem_map_of_mem (List.mem_reverse.2 hx))]
    case isFalse =>
      rw [List.reverse_cons, List.map_append, List.sum_append, List.map_singleton,
        List.sum_singleton]

theorem sum_flatMap {α β : Type} {f : α → Meaning} {g : β → Meaning} {parts : α → List β}
    (h : ∀ x, ((parts x).map g).sum = f x) (xs : List α) :
    ((xs.flatMap parts).map g).sum = (xs.map f).sum := by
  induction xs with
  | nil => rfl
  | cons x xs ih =>
    rw [List.flatMap_cons, List.map_append, List.sum_append, h, ih, List.map_cons, List.sum_cons]

/-! ## Joining literals -/

theorem lit_append {l m : Literal} (h : l.Fuses m) :
    (Kind.lit (l.append m)).meaning = (Kind.lit l).meaning * (Kind.lit m).meaning := by
  apply ext_apply
  · ext w
    show (l.append m).Spells w ↔ ∃ x, l.Spells x ∧ ∃ y, m.Spells y ∧ x ++ y = w
    rw [Literal.spells_append h]
    exact ⟨fun ⟨x, y, hx, hy, hw⟩ => ⟨x, hx, y, hy, hw.symm⟩, fun ⟨x, hx, y, hy, hw⟩ =>
      ⟨x, y, hx, hy, hw.symm⟩⟩
  · intro data limit pos
    rw [mul_stopAt]
    simp only [Kind.meaning, Kind.map, Kind.stopAt, Literal.occursAt_append h]
    by_cases hl : l.occursAt 0 data pos (min limit data.bitSize) = true
    · simp only [hl, Bool.true_and, if_true, Option.bind_some, Literal.length_append]
      rw [Kind.stopAt, Nat.add_assoc]
    · simp [hl]

/-! ## Repetitions -/

theorem allows_exactly (n m : Nat) : (Repeat.exactly n).Allows m ↔ m = n := by
  simp only [Repeat.Allows, Repeat.AtMost, Repeat.exactly, Option.mem_def, Option.some.injEq,
    forall_eq']
  omega

theorem rep_exactly_one (m : Meaning) : (Kind.rep m (.exactly 1)).meaning = m := by
  apply ext_apply
  · ext w
    show (∃ n, (Repeat.exactly 1).Allows n ∧ w ∈ m.language ^ n) ↔ w ∈ m.language
    simp only [allows_exactly, exists_eq_left, pow_one]
  · intro data limit pos
    simp only [Kind.meaning, Kind.map, Kind.stopAt, plainRepeat]
    rw [greedy]
    -- a second round, if there is one, is stopped by the upper bound
    have hdone : ∀ fuel stop, greedy (m.stopAt data limit) (.exactly 1) fuel stop 1 =
        (stop, 1) := by
      intro fuel stop
      cases fuel <;> simp [greedy, Repeat.exactly]
    cases hstop : m.stopAt data limit pos with
    | none => simp [Repeat.exactly]
    | some stop =>
      by_cases hstay : stop = pos
      · simp [Repeat.exactly, hstay]
      · have hfirst := hdone (min limit data.bitSize - pos) stop
        simp only [Repeat.exactly] at hfirst
        simp [Repeat.exactly, hstay, hfirst]

theorem rep_max_zero (m : Meaning) : (Kind.rep m ⟨0, some 0⟩).meaning = 1 := by
  have hallows : ∀ n, (⟨0, some 0⟩ : Repeat).Allows n ↔ n = 0 := by
    intro n
    simp [Repeat.Allows, Repeat.AtMost]
  apply ext_apply
  · ext w
    show (∃ n, (⟨0, some 0⟩ : Repeat).Allows n ∧ w ∈ m.language ^ n) ↔ w ∈ (1 : Language Bool)
    simp only [hallows, exists_eq_left, pow_zero]
  · intro data limit pos
    simp [Kind.meaning, Kind.map, Kind.stopAt, plainRepeat, greedy, one_stopAt]

theorem pow_lengths (bits n : Nat) :
    (Kind.any bits : Kind (Language Bool)).language ^ n = (Kind.any (bits * n)).language := by
  induction n with
  | zero =>
    ext w
    rw [pow_zero, Language.mem_one]
    show w = [] ↔ w.length = bits * 0
    rw [Nat.mul_zero, List.length_eq_zero_iff]
  | succ n ih =>
    ext w
    rw [pow_succ', ih, Language.mem_mul]
    constructor
    · rintro ⟨x, hx, y, hy, rfl⟩
      change x.length = bits at hx
      change y.length = bits * n at hy
      show (x ++ y).length = bits * (n + 1)
      rw [List.length_append, hx, hy, Nat.mul_succ, Nat.add_comm]
    · intro hw
      change w.length = bits * (n + 1) at hw
      rw [Nat.mul_succ] at hw
      refine ⟨w.take bits, ?_, w.drop bits, ?_, List.take_append_drop bits w⟩
      · show (w.take bits).length = bits
        rw [List.length_take]
        omega
      · show (w.drop bits).length = bits * n
        rw [List.length_drop]
        omega

/-- Where `remaining` more blocks of bits end, if they fit before the limit. -/
theorem greedy_any {bits : Nat} (hbits : 0 < bits) (limit : Nat) {n : Nat}
    (remaining fuel pos count : Nat) (hcount : count + remaining = n) (hfuel : limit - pos < fuel) :
    let step := fun pos => if pos + bits ≤ limit then some (pos + bits) else none
    (if n ≤ (greedy step (.exactly n) fuel pos count).2 then
        some (greedy step (.exactly n) fuel pos count).1 else none) =
      if remaining = 0 ∨ pos + bits * remaining ≤ limit then some (pos + bits * remaining)
        else none := by
  dsimp only
  induction remaining generalizing fuel pos count with
  | zero =>
    obtain ⟨fuel, rfl⟩ := Nat.exists_eq_succ_of_ne_zero (by omega : fuel ≠ 0)
    have hmax : (Repeat.exactly n).max.any (· ≤ count) = true := by simp [Repeat.exactly]; omega
    rw [greedy, if_pos hmax]
    simp
    omega
  | succ remaining ih =>
    obtain ⟨fuel, rfl⟩ := Nat.exists_eq_succ_of_ne_zero (by omega : fuel ≠ 0)
    have hmax : ¬ (Repeat.exactly n).max.any (· ≤ count) = true := by simp [Repeat.exactly]; omega
    rw [greedy, if_neg hmax]
    by_cases hfits : pos + bits ≤ limit
    · have hmoved : pos + bits ≠ pos := by omega
      have hstep := ih fuel (pos + bits) (count + 1) (by omega) (by omega)
      simp only [if_pos hfits, if_neg hmoved]
      rw [hstep, Nat.mul_succ]
      have hsum : pos + bits + bits * remaining = pos + (bits * remaining + bits) := by omega
      have hroom : remaining = 0 ∨ pos + (bits * remaining + bits) ≤ limit ↔
          remaining + 1 = 0 ∨ pos + (bits * remaining + bits) ≤ limit := by
        constructor
        · rintro (rfl | h) <;> simp <;> omega
        · rintro (h | h) <;> omega
      simp only [hsum, hroom]
    · -- not even the next block fits, so neither do all of them
      have hmul : bits ≤ bits * (remaining + 1) := Nat.le_mul_of_pos_right bits (by omega)
      simp only [if_neg hfits]
      rw [if_neg (by omega), if_neg (by omega)]

theorem rep_any {bits : Nat} (hbits : 0 < bits) {n : Nat} (hn : n ≠ 0) :
    (Kind.rep (Kind.any bits).meaning (.exactly n)).meaning = (Kind.any (bits * n)).meaning := by
  apply ext_apply
  · ext w
    show (∃ m, (Repeat.exactly n).Allows m ∧
      w ∈ (Kind.any bits : Kind (Language Bool)).language ^ m) ↔
      w ∈ (Kind.any (bits * n) : Kind (Language Bool)).language
    simp only [allows_exactly, exists_eq_left, pow_lengths]
  · intro data limit pos
    have hgreedy := greedy_any hbits (min limit data.bitSize) n
      (min limit data.bitSize - pos + 1) pos 0 (Nat.zero_add n) (Nat.lt_succ_self _)
    simp only [Kind.meaning, Kind.map, Kind.stopAt, plainRepeat, hn, false_or] at hgreedy ⊢
    exact hgreedy

end Meaning

end Sigil
