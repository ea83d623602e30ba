import Sigil.Census
import Sigil.Proofs.FirstBytes
import Sigil.Proofs.Numbers
import Sigil.Proofs.Storage

namespace Sigil

open Sigil.Derivation (yield yieldAll sequences runs choices)

namespace Census

variable {c d e : Census} {n cap : Nat}

def share (entry : Nat × Nat) (n : Nat) : Nat := if entry.1 = n then entry.2 else 0

def tally (c : Census) (n : Nat) : Nat := (c.map (share · n)).sum

theorem tally_nil (n : Nat) : tally [] n = 0 := rfl

theorem tally_entry (entry : Nat × Nat) (c : Census) (n : Nat) :
    tally (entry :: c) n = share entry n + tally c n := rfl

def Within (c : Census) (cap : Nat) : Prop := ∀ entry ∈ c, entry.1 ≤ cap

theorem Within.tally_eq_zero (h : c.Within cap) (hn : cap < n) : tally c n = 0 := by
  induction c with
  | nil => rfl
  | cons entry rest ih =>
    obtain ⟨hentry, hrest⟩ := List.forall_mem_cons.1 h
    rw [tally_entry, ih hrest, share, if_neg (by omega)]

/-! ## Sums -/

theorem min_add_inf {i j k m : Nat} (h : min i inf = min j inf) (h' : min k inf = min m inf) :
    min (i + k) inf = min (j + m) inf := by
  omega

/-- Entries of one length are joined. -/
theorem share_joined {entry next : Nat × Nat} (h : entry.1 = next.1) (n more : Nat) :
    min (share (entry.1, satAdd entry.2 next.2) n + more) inf =
      min (share entry n + share next n + more) inf := by
  unfold share satAdd
  rw [← h]
  dsimp only
  split <;> omega

theorem tally_cons (entry : Nat × Nat) (c : Census) (n : Nat) :
    min (tally (cons entry c) n) inf = min (share entry n + tally c n) inf := by
  cases c with
  | nil => rfl
  | cons next rest =>
    rw [cons]
    by_cases heq : entry.1 = next.1
    · rw [if_pos heq, tally_entry, tally_entry, share_joined heq, Nat.add_assoc]
    · rw [if_neg heq, tally_entry]

theorem Within.cons {entry : Nat × Nat} (hentry : entry.1 ≤ cap) (h : c.Within cap) :
    (Census.cons entry c).Within cap := by
  cases c with
  | nil => exact List.forall_mem_singleton.2 hentry
  | cons next rest =>
    rw [Census.cons]
    split
    · exact List.forall_mem_cons.2 ⟨hentry, (List.forall_mem_cons.1 h).2⟩
    · exact List.forall_mem_cons.2 ⟨hentry, h⟩

theorem tally_mergeEntry (entry : Nat × Nat) {rest : Census → Census} {m : Nat}
    (h : ∀ other, min (tally (rest other) n) inf = min (m + tally other n) inf) (other : Census) :
    min (tally (mergeEntry entry rest other) n) inf =
      min (share entry n + m + tally other n) inf := by
  induction other with
  | nil =>
    have hrest := h []
    rw [mergeEntry, tally_entry, tally_nil] at *
    omega
  | cons next other ih =>
    rw [mergeEntry]
    by_cases hlt : next.1 < entry.1
    · have hrest := h (next :: other)
      rw [if_pos hlt, tally_entry]
      omega
    · rw [if_neg hlt]
      by_cases heq : entry.1 = next.1
      · have hrest := h other
        rw [if_pos heq, tally_entry, tally_entry, share_joined heq]
        omega
      · rw [if_neg heq, tally_entry, tally_entry]
        omega

theorem tally_merge (c d : Census) (n : Nat) :
    min (tally (merge c d) n) inf = min (tally c n + tally d n) inf := by
  induction c generalizing d with
  | nil => rw [merge, tally_nil, Nat.zero_add]
  | cons entry rest ih => rw [merge, tally_mergeEntry entry ih, tally_entry]

theorem Within.mergeEntry {entry : Nat × Nat} {rest : Census → Census} (hentry : entry.1 ≤ cap)
    (hrest : ∀ other : Census, other.Within cap → (rest other).Within cap) (h : c.Within cap) :
    (Census.mergeEntry entry rest c).Within cap := by
  induction c with
  | nil => exact List.forall_mem_cons.2 ⟨hentry, hrest [] h⟩
  | cons next other ih =>
    obtain ⟨hnext, hother⟩ := List.forall_mem_cons.1 h
    rw [Census.mergeEntry]
    split
    · exact List.forall_mem_cons.2 ⟨hentry, hrest _ h⟩
    · split
      · exact List.forall_mem_cons.2 ⟨hentry, hrest _ hother⟩
      · exact List.forall_mem_cons.2 ⟨hnext, ih hother⟩

theorem Within.merge (hc : c.Within cap) (hd : d.Within cap) : (Census.merge c d).Within cap := by
  induction c generalizing d with
  | nil => exact hd
  | cons entry rest ih =>
    obtain ⟨hentry, hrest⟩ := List.forall_mem_cons.1 hc
    exact Within.mergeEntry hentry (fun _ hother => ih hrest hother) hd

theorem tally_merges (cs : List Census) (n : Nat) :
    min (tally (cs.foldr merge []) n) inf = min (cs.map (tally · n)).sum inf := by
  induction cs with
  | nil => rfl
  | cons c cs ih =>
    rw [List.foldr_cons, tally_merge, List.map_cons, List.sum_cons]
    exact min_add_inf rfl ih

theorem Within.merges {cs : List Census} (h : ∀ c ∈ cs, c.Within cap) :
    (cs.foldr Census.merge []).Within cap := by
  induction cs with
  | nil => exact List.forall_mem_nil _
  | cons c cs ih =>
    obtain ⟨hc, hcs⟩ := List.forall_mem_cons.1 h
    exact hc.merge (ih hcs)

/-! ## Products -/

theorem sum_share {entry : Nat × Nat} (hentry : entry.1 ∈ lengths) (f : Nat → Nat) :
    ∑ i ∈ lengths, share entry i * f i = entry.2 * f entry.1 := by
  simp only [share, ite_mul, Nat.zero_mul, Finset.sum_ite_eq, if_pos hentry]

/-- What follows a derivation is counted as often as there are such derivations. -/
theorem tally_after {length count : Nat} (hc : c.Within inf) (hcap : n ≤ cap) :
    min (tally (after length count cap c) n) inf =
      min (∑ j ∈ lengths with satAdd length j = n, count * tally c j) inf := by
  induction c with
  | nil => simp [after, tally_nil]
  | cons entry rest ih =>
    obtain ⟨hentry, hrest⟩ := List.forall_mem_cons.1 hc
    have hsum : ∑ j ∈ lengths with satAdd length j = n, count * tally (entry :: rest) j =
        (if satAdd length entry.1 = n then count * entry.2 else 0) +
          ∑ j ∈ lengths with satAdd length j = n, count * tally rest j := by
      simp only [tally_entry, Nat.mul_add, Finset.sum_add_distrib, share, mul_ite, Nat.mul_zero,
        Finset.sum_ite_eq, Finset.mem_filter, mem_lengths.2 hentry, true_and]
    have hshare : share (satAdd length entry.1, satMul count entry.2) n =
        min (if satAdd length entry.1 = n then count * entry.2 else 0) inf := by
      unfold share satMul
      dsimp only
      split
      · rfl
      · exact (Nat.zero_min _).symm
    specialize ih hrest
    rw [hsum]
    change min (tally (if satAdd length entry.1 ≤ cap then
      cons (satAdd length entry.1, satMul count entry.2) (after length count cap rest)
        else after length count cap rest) n) inf = _
    by_cases hfits : satAdd length entry.1 ≤ cap
    · rw [if_pos hfits, tally_cons, hshare]
      exact min_add_inf (Nat.min_eq_left (Nat.min_le_right ..)) ih
    · -- what is beyond the cap is of another length
      rw [if_neg hfits, if_neg (by omega), Nat.zero_add]
      exact ih

theorem Within.after (length count cap : Nat) (c : Census) :
    (Census.after length count cap c).Within cap := by
  induction c with
  | nil => exact List.forall_mem_nil _
  | cons entry rest ih =>
    show Within (if satAdd length entry.1 ≤ cap then
      Census.cons (satAdd length entry.1, satMul count entry.2) (Census.after length count cap rest)
        else Census.after length count cap rest) cap
    split
    case isTrue hfits => exact ih.cons hfits
    case isFalse => exact ih

theorem eq_of_bounded (h : bounded c = some d) : d = c := by
  unfold bounded at h
  split at h
  · exact (Option.some.inj h).symm
  · exact absurd h (by simp)

theorem tally_union (h : union c d = some e) (n : Nat) :
    min (tally e n) inf = min (tally c n + tally d n) inf := by
  rw [eq_of_bounded h, tally_merge]

theorem tally_concat (hc : c.Within inf) (hd : d.Within inf) (h : concat c d cap = some e)
    (hcap : n ≤ cap) : min (tally e n) inf = min (convolve (tally c) (tally d) n) inf := by
  rw [eq_of_bounded h, tally_merges, List.map_map]
  clear h
  induction c with
  | nil => simp [convolve, tally_nil]
  | cons entry rest ih =>
    obtain ⟨hentry, hrest⟩ := List.forall_mem_cons.1 hc
    have hsum : convolve (tally (entry :: rest)) (tally d) n =
        (∑ j ∈ lengths with satAdd entry.1 j = n, entry.2 * tally d j) +
          convolve (tally rest) (tally d) n := by
      simp only [convolve, tally_entry, Nat.add_mul, Finset.sum_add_distrib, ← Finset.mul_sum]
      rw [sum_share (mem_lengths.2 hentry)]
    rw [hsum, List.map_cons, List.sum_cons]
    exact min_add_inf (tally_after hd hcap) (ih hrest)

/-! ## Totals -/

theorem total_eq (c : Census) (bound : BitRange) (hc : c.Within inf) :
    c.total bound = min (∑ n ∈ lengths with bound.Admits n, tally c n) inf := by
  suffices h : ∀ start ≤ inf,
      c.foldl (fun sum entry => if bound.Admits entry.1 then satAdd sum entry.2 else sum) start =
        min (start + ∑ n ∈ lengths with bound.Admits n, tally c n) inf by
    have hzero := h 0 (Nat.zero_le _)
    rwa [Nat.zero_add] at hzero
  induction c with
  | nil =>
    intro start hstart
    simp [tally_nil, hstart]
  | cons entry rest ih =>
    intro start hstart
    obtain ⟨hentry, hrest⟩ := List.forall_mem_cons.1 hc
    rw [List.foldl_cons, ih hrest]
    · simp only [tally_entry, Finset.sum_add_distrib, share, Finset.sum_ite_eq, Finset.mem_filter,
        mem_lengths.2 hentry, true_and]
      unfold satAdd
      split <;> omega
    · split
      · exact satAdd_le_inf ..
      · exact hstart

/-! ## Exact counts -/

structure Exact (c : Census) (f : Nat → ℕ∞) (cap : Nat) : Prop where
  within : c.Within cap
  near : ∀ n ≤ cap, Near (tally c n) (f n)

namespace Exact

variable {f g : Nat → ℕ∞} {A : Set Derivation} {r : Repeat}

theorem congr (h : c.Exact f cap) (hfg : ∀ n ≤ cap, g n = f n) : c.Exact g cap where
  within := h.within
  near n hn := hfg n hn ▸ h.near n hn

/-- A census without entries counts nothing. -/
theorem eq_zero (h : Exact [] f cap) (hn : n ≤ cap) : f n = 0 := by
  have hnear := h.near n hn
  rw [tally_nil, Nat.cast_zero] at hnear
  exact hnear.eq_zero

theorem nil (hf : ∀ n ≤ cap, f n = 0) : Exact [] f cap where
  within := List.forall_mem_nil _
  near n hn := Near.of_eq (hf n hn).symm

theorem single {length count : Nat} (hf : ∀ n ≤ cap, n ≠ length → f n = 0)
    (hlength : length ≤ cap → Near count (f length)) :
    (Census.single length count cap).Exact f cap := by
  unfold Census.single
  split
  case isTrue hfits =>
    refine ⟨List.forall_mem_singleton.2 hfits.1, fun n hn => ?_⟩
    rw [tally_entry, tally_nil, Nat.add_zero, share]
    by_cases heq : length = n
    · rw [if_pos heq, ← heq]
      exact hlength hfits.1
    · rw [if_neg heq, hf n hn (Ne.symm heq)]
      exact Near.refl _
  case isFalse hnot =>
    refine nil fun n hn => ?_
    by_cases heq : n = length
    · have hzero : count = 0 := by
        rw [heq] at hn
        omega
      have hnear := hlength (heq ▸ hn)
      rw [hzero, Nat.cast_zero] at hnear
      rw [heq]
      exact hnear.eq_zero
    · exact hf n hn heq

theorem union (hc : c.Exact f cap) (hd : d.Exact g cap) (h : c.union d = some e) :
    e.Exact (fun n => f n + g n) cap where
  within := eq_of_bounded h ▸ hc.within.merge hd.within
  near n hn := by
    refine (Near.of_min_eq (tally_union h n)).trans ?_
    rw [Nat.cast_add]
    exact (hc.near n hn).add (hd.near n hn)

theorem concat (hcap : cap ≤ inf) (hc : c.Exact f cap) (hd : d.Exact g cap)
    (h : c.concat d cap = some e) : e.Exact (convolve f g) cap where
  within := by
    rw [eq_of_bounded h]
    refine Within.merges fun d hd => ?_
    obtain ⟨entry, -, rfl⟩ := List.mem_map.1 hd
    exact Within.after entry.1 entry.2 cap _
  near n hn := by
    have hinf : ∀ {c : Census}, c.Within cap → c.Within inf :=
      fun hc entry hentry => (hc entry hentry).trans hcap
    refine (Near.of_min_eq (tally_concat (hinf hc.within) (hinf hd.within) h hn)).trans ?_
    rw [convolve_cast]
    exact Near.convolve hc.near hd.near hn

/-! ## Repetitions -/

/-- No derivation of greater length is left out once the counts that are allowed have been seen. -/
theorem of_max_le {done : Nat}
    (hc : c.Exact (number yieldAll (runs A fun k => k ≤ done ∧ r.Allows k)) cap)
    (hmax : r.max.any (· ≤ done) = true) : c.Exact (number yieldAll (runs A r.Allows)) cap := by
  obtain ⟨m, hm, hle⟩ := (Option.any_eq_true ..).1 hmax
  have hall : (fun k => k ≤ done ∧ r.Allows k) = r.Allows := by
    funext k
    exact propext (and_iff_right_of_imp fun hk => (hk.2 m hm).trans (of_decide_eq_true hle))
  rwa [hall] at hc

/-- Once no run is short, all short ones that are allowed have been seen. -/
theorem of_zero {done : Nat}
    (hc : c.Exact (number yieldAll (runs A fun k => k ≤ done ∧ r.Allows k)) cap)
    (hzero : ∀ n ≤ cap, number yieldAll (runs A (· = done + 1)) n = 0) :
    c.Exact (number yieldAll (runs A r.Allows)) cap := by
  refine hc.congr fun n hn => ?_
  have hsplit : r.Allows = fun k => (k ≤ done ∧ r.Allows k) ∨ (done + 1 ≤ k ∧ r.Allows k) := by
    funext k
    rw [← or_and_right]
    exact propext (and_iff_right (Nat.lt_or_ge done k).symm).symm
  calc number yieldAll (runs A r.Allows) n
      = number yieldAll (runs A fun k => (k ≤ done ∧ r.Allows k) ∨ (done + 1 ≤ k ∧ r.Allows k)) n :=
        congrArg (fun P => number yieldAll (runs A P) n) hsplit
    _ = number yieldAll (runs A fun k => k ≤ done ∧ r.Allows k) n +
          number yieldAll (runs A fun k => done + 1 ≤ k ∧ r.Allows k) n :=
        Derivation.number_runs_or (fun k h h' => Nat.lt_irrefl k (h.1.trans_lt h'.1)) A n
    _ = number yieldAll (runs A fun k => k ≤ done ∧ r.Allows k) n + 0 :=
        congrArg _ (Derivation.number_runs_eq_zero hzero (fun m hm => hm.1) hn)
    _ = number yieldAll (runs A fun k => k ≤ done ∧ r.Allows k) n := add_zero _

theorem addPowers (hcap : cap ≤ inf) {unit : Census} (hunit : unit.Exact (number yield A) cap)
    (fuel : Nat) {done : Nat} {power total : Census}
    (hpower : power.Exact (number yieldAll (runs A (· = done))) cap)
    (htotal : total.Exact (number yieldAll (runs A fun k => k ≤ done ∧ r.Allows k)) cap)
    (h : addPowers unit r cap fuel done power total = some e) :
    e.Exact (number yieldAll (runs A r.Allows)) cap := by
  induction fuel generalizing done power total with
  | zero =>
    unfold Census.addPowers at h
    split at h
    case isTrue hmax => exact Option.some.inj h ▸ htotal.of_max_le hmax
    case isFalse => exact absurd h (by simp)
  | succ fuel ih =>
    unfold Census.addPowers at h
    split at h
    case isTrue hmax => exact Option.some.inj h ▸ htotal.of_max_le hmax
    case isFalse hmax =>
      obtain ⟨next, hnext, hrest⟩ := Option.bind_eq_some_iff.1 h
      have hexact : next.Exact (number yieldAll (runs A (· = done + 1))) cap :=
        (hpower.concat hcap hunit hnext).congr fun n _ => Derivation.number_runs_succ A done n
      split at hrest
      case isTrue hempty =>
        rw [← Option.some.inj hrest]
        exact htotal.of_zero fun n hn => (List.isEmpty_iff.1 hempty ▸ hexact).eq_zero hn
      case isFalse =>
        by_cases hmin : r.min ≤ done + 1
        · simp only [if_pos hmin] at hrest
          obtain ⟨total', htotal', hrun⟩ := Option.bind_eq_some_iff.1 hrest
          have hallows : r.Allows (done + 1) := by
            refine ⟨hmin, fun m hm => ?_⟩
            rw [Option.any_eq_true] at hmax
            have hlt : ¬ m ≤ done := fun hle => hmax ⟨m, hm, decide_eq_true hle⟩
            omega
          exact ih hexact ((hexact.union htotal htotal').congr fun n _ =>
            Derivation.number_runs_le_succ hallows A n) hrun
        · simp only [if_neg hmin] at hrest
          refine ih hexact ?_ hrest
          rwa [Derivation.runs_le_succ_of_not fun hallows => hmin hallows.1]

/-- There is one way to derive nothing. -/
theorem sequences_nil (cap : Nat) :
    (Census.single 0 1 cap).Exact (number yieldAll (sequences [])) cap := by
  refine single (fun n _ hn => by rw [Derivation.number_sequences_nil, if_neg hn]) fun _ => ?_
  rw [Derivation.number_sequences_nil, if_pos rfl]
  exact Near.of_eq Nat.cast_one

theorem runs_zero (A : Set Derivation) (cap : Nat) :
    (Census.single 0 1 cap).Exact (number yieldAll (runs A (· = 0))) cap := by
  rw [← Derivation.sequences_replicate]
  exact sequences_nil cap

theorem repetition (hcap : cap ≤ inf) {unit : Census} (hunit : unit.Exact (number yield A) cap)
    (h : unit.repetition r cap = some e) : e.Exact (number yieldAll (runs A r.Allows)) cap := by
  -- no application at all leaves the empty string
  have hskipped : (if r.min = 0 then Census.single 0 1 cap else []).Exact
      (number yieldAll (runs A fun k => k ≤ 0 ∧ r.Allows k)) cap := by
    split
    case isTrue hmin =>
      have hzero : (fun k => k ≤ 0 ∧ r.Allows k) = (· = 0) := by
        funext k
        refine propext ⟨fun hk => Nat.le_zero.1 hk.1, ?_⟩
        rintro rfl
        exact ⟨le_rfl, hmin.le, fun m _ => Nat.zero_le m⟩
      rw [hzero]
      exact runs_zero A cap
    case isFalse hmin =>
      refine nil fun n _ => number_eq_zero.2 ?_
      rintro ds ⟨⟨hle, hallows⟩, -⟩
      exact absurd (Nat.le_zero.1 (hallows.1.trans hle)) hmin
  unfold Census.repetition at h
  dsimp only at h
  split at h
  case isTrue hempty =>
    rw [← Option.some.inj h]
    refine hskipped.of_zero fun n hn => ?_
    rw [Derivation.number_runs_succ]
    refine convolve_eq_zero fun i _ j hj => ?_
    have hnone : Exact [] (number yield A) cap := List.isEmpty_iff.1 hempty ▸ hunit
    rw [hnone.eq_zero (hj.trans hn), mul_zero]
  case isFalse =>
    split at h
    case isTrue => exact absurd h (by simp)
    case isFalse => exact hunit.addPowers hcap _ (runs_zero A cap) hskipped h

end Exact

end Census

/-! ## Leaves -/

namespace Literal

theorem swapCase_of_isLetter {b : UInt8} (h : Ascii.isLetter b = true) :
    Ascii.swapCase b ≠ b ∧ Ascii.toLower (Ascii.swapCase b) = Ascii.toLower b ∧
      Ascii.isDash b = false := by
  have hb := b.toNat_lt
  simp only [Ascii.toLower, Ascii.swapCase, Ascii.toUpper, Ascii.isLetter, Ascii.isLower,
    Ascii.isUpper, Ascii.isDash,
    Bool.and_eq_true, Bool.or_eq_true, decide_eq_true_iff, UInt8.le_iff_toNat_le, ne_eq,
    ← UInt8.toNat_inj, Bool.or_eq_false_iff, beq_eq_false_iff_ne] at h ⊢
  split_ifs at h ⊢ <;> simp [UInt8.toNat_sub, UInt8.toNat_add] at * <;> omega

theorem swapDash_of_isDash {b : UInt8} (h : Ascii.isDash b = true) :
    Ascii.swapDash b ≠ b ∧ Ascii.isDash (Ascii.swapDash b) = true := by
  simp only [Ascii.isDash, Bool.or_eq_true, beq_iff_eq] at h
  rcases h with rfl | rfl <;> decide

variable {l : Literal}

theorem mem_variants_iff {e a : UInt8} : a ∈ l.variants e ↔ l.accepts e a = true := by
  refine ⟨fun h => ?_, mem_variants_of_accepts⟩
  simp only [accepts, Bool.or_eq_true, Bool.and_eq_true, beq_iff_eq]
  rw [variants, List.mem_append, List.mem_cons] at h
  rcases h with (rfl | hcase) | hdash
  · exact Or.inl (Or.inl rfl)
  · split at hcase
    case isTrue hflag =>
      rw [Bool.and_eq_true] at hflag
      rw [List.mem_singleton.1 hcase]
      exact Or.inl (Or.inr ⟨hflag.1, (swapCase_of_isLetter hflag.2).2.1.symm⟩)
    case isFalse => exact absurd hcase List.not_mem_nil
  · split at hdash
    case isTrue hflag =>
      rw [Bool.and_eq_true] at hflag
      rw [List.mem_singleton.1 hdash]
      exact Or.inr ⟨hflag, (swapDash_of_isDash hflag.2).2⟩
    case isFalse => exact absurd hdash List.not_mem_nil

theorem nodup_variants (l : Literal) (b : UInt8) : (l.variants b).Nodup := by
  rw [variants]
  cases hletter : Ascii.isLetter b with
  | true =>
    obtain ⟨hne, -, hdash⟩ := swapCase_of_isLetter hletter
    rw [hdash]
    cases l.nocase <;> simp [hne.symm]
  | false =>
    cases hdash : Ascii.isDash b with
    | true => cases l.dash <;> simp [(swapDash_of_isDash hdash).1.symm]
    | false => simp

/-- A string of variants is a choice of one for each byte. -/
theorem encard_variants (l : Literal) (es : List UInt8) :
    {bytes | List.Forall₂ (fun e a => l.accepts e a = true) es bytes}.encard =
      ((es.map fun e => (l.variants e).length).prod : Nat) := by
  induction es with
  | nil =>
    have hset :
        {bytes : List UInt8 | List.Forall₂ (fun e a => l.accepts e a = true) [] bytes} = {[]} :=
      Set.ext fun bytes => List.forall₂_nil_left_iff
    rw [hset, Set.encard_singleton]
    rfl
  | cons e es ih =>
    have hset : {bytes | List.Forall₂ (fun e a => l.accepts e a = true) (e :: es) bytes} =
        (fun p : UInt8 × List UInt8 => p.1 :: p.2) '' ({a | a ∈ (l.variants e).toFinset} ×ˢ
          {bytes | List.Forall₂ (fun e a => l.accepts e a = true) es bytes}) := by
      ext bytes
      constructor
      · rintro (_ | ⟨ha, hbytes⟩)
        exact ⟨(_, _), ⟨List.mem_toFinset.2 (mem_variants_iff.2 ha), hbytes⟩, rfl⟩
      · rintro ⟨⟨a, bytes⟩, ⟨ha, hbytes⟩, rfl⟩
        exact .cons (mem_variants_iff.1 (List.mem_toFinset.1 ha)) hbytes
    have hinj : Function.Injective fun p : UInt8 × List UInt8 => p.1 :: p.2 := fun p q h =>
      Prod.ext (List.cons.inj h).1 (List.cons.inj h).2
    have hvariants : {a | a ∈ (l.variants e).toFinset}.encard = ((l.variants e).length : ℕ∞) := by
      rw [← List.toFinset_card_of_nodup (nodup_variants l e), ← Set.encard_coe_eq_coe_finsetCard]
      rfl
    rw [hset, hinj.injOn.encard_image, Set.encard_prod, ih, hvariants, List.map_cons,
      List.prod_cons, Nat.cast_mul]

/-- A factor may be cut first. -/
theorem min_mul_min (m n : Nat) : min (min m inf * n) inf = min (m * n) inf := by
  rcases Nat.le_total m inf with hm | hm
  · rw [Nat.min_eq_left hm]
  · rcases Nat.eq_zero_or_pos n with rfl | hn
    · rfl
    · have hcut : inf ≤ inf * n := Nat.le_mul_of_pos_right inf hn
      rw [Nat.min_eq_right hm, Nat.min_eq_right hcut,
        Nat.min_eq_right (hcut.trans (Nat.mul_le_mul_right n hm))]

theorem foldl_satMul {α : Type} (f : α → Nat) (xs : List α) {n : Nat} (hn : n ≤ inf) :
    xs.foldl (fun n x => satMul n (f x)) n = min (n * (xs.map f).prod) inf := by
  induction xs generalizing n with
  | nil => simp [hn]
  | cons x xs ih =>
    rw [List.foldl_cons, ih (satMul_le_inf ..), List.map_cons, List.prod_cons, ← Nat.mul_assoc,
      satMul, min_mul_min]

def spellings (l : Literal) : Nat :=
  match l.flaggedBytes? 0 with
  | some bytes => (bytes.map fun b => (l.variants b).length).prod
  | none => 1

theorem variantCount_eq {l : Literal} {lead : Fin 8} (h : l.IsPlain ∨ lead = 0) :
    l.variantCount lead = min l.spellings inf := by
  unfold variantCount spellings
  rw [flaggedBytes?_of_flush h]
  cases l.flaggedBytes? 0 with
  | none => rfl
  | some bytes =>
    dsimp only
    rw [foldl_satMul _ _ (by decide), Nat.one_mul]

theorem encard_spells (hl : l.IsPlain ∨ l.bits.WholeBytes) :
    {w | l.Spells w}.encard = l.spellings := by
  by_cases hplain : l.IsPlain
  · have hset : {w | l.Spells w} = {l.bits} := Set.ext fun w =>
      ⟨fun hw => hw.eq_bits hplain, fun hw => hw ▸ spells_bits hl⟩
    rw [spellings, flaggedBytes?, if_pos hplain, hset, Set.encard_singleton]
    exact Nat.cast_one.symm
  · have hset : {w | l.Spells w} =
        Bits.ofBytes ''
          {bytes | List.Forall₂ (fun e a => l.accepts e a = true) l.bits.toBytes bytes} := by
      ext w
      constructor
      · intro hw
        obtain ⟨bytes, hall, rfl⟩ := hw.exists_bytes hplain
        exact ⟨bytes, hall, rfl⟩
      · rintro ⟨bytes, hall, rfl⟩
        exact spells_ofBytes hplain hall
    have hinj : Function.Injective Bits.ofBytes :=
      Function.LeftInverse.injective Bits.toBytes_ofBytes
    rw [hset, hinj.injOn.encard_image, encard_variants, spellings, flaggedBytes?,
      if_neg hplain, bytes?, if_pos (hl.resolve_left hplain), stored_zero]

end Literal

theorem encard_any (n : Nat) : {w : Bits | w.length = n}.encard = (2 ^ n : Nat) := by
  rw [← Set.Finite.cast_ncard_eq (List.finite_length_eq Bool n), ← Nat.card_coe_set_eq]
  change ((Nat.card (List.Vector Bool n) : Nat) : ℕ∞) = _
  rw [Nat.card_eq_fintype_card, card_vector, Fintype.card_bool]

theorem encard_range {lo hi : UInt8} (h : lo ≤ hi) :
    {w | ∃ b, lo ≤ b ∧ b ≤ hi ∧ w = Bits.ofByte b}.encard = (hi.toNat - lo.toNat + 1 : Nat) := by
  have hset : {w | ∃ b, lo ≤ b ∧ b ≤ hi ∧ w = Bits.ofByte b} =
      (fun n => Bits.ofByte (UInt8.ofNat n)) '' (Finset.Icc lo.toNat hi.toNat : Set Nat) := by
    ext w
    constructor
    · rintro ⟨b, hlo, hhi, rfl⟩
      exact ⟨b.toNat, Finset.mem_coe.2 (Finset.mem_Icc.2 ⟨hlo, hhi⟩), by simp⟩
    · rintro ⟨n, hn, rfl⟩
      obtain ⟨hlo, hhi⟩ := Finset.mem_Icc.1 (Finset.mem_coe.1 hn)
      have hlt := hi.toNat_lt
      have hn : (UInt8.ofNat n).toNat = n := by
        rw [UInt8.toNat_ofNat']
        omega
      refine ⟨UInt8.ofNat n, ?_, ?_, rfl⟩
      · rwa [UInt8.le_iff_toNat_le, hn]
      · rwa [UInt8.le_iff_toNat_le, hn]
  have hinj : Set.InjOn (fun n => Bits.ofByte (UInt8.ofNat n))
      (Finset.Icc lo.toNat hi.toNat : Set Nat) := by
    intro m hm n hn heq
    have hlt := hi.toNat_lt
    have hm := (Finset.mem_Icc.1 (Finset.mem_coe.1 hm)).2
    have hn := (Finset.mem_Icc.1 (Finset.mem_coe.1 hn)).2
    have htoNat := congrArg UInt8.toNat (Bits.ofByte_injective heq)
    rw [UInt8.toNat_ofNat', UInt8.toNat_ofNat'] at htoNat
    omega
  have hle : lo.toNat ≤ hi.toNat := h
  rw [hset, hinj.encard_image, Set.encard_coe_eq_coe_finsetCard, Nat.card_Icc]
  congr 1
  omega

/-- Strings of one length, each of them the whole derivation. -/
theorem Census.Exact.leaves {L : Set Bits} {length count cap : Nat}
    (hL : ∀ w ∈ L, w.length = length) (hlength : cap < inf ∨ length ≤ inf)
    (hcount : length ≤ cap → Near count L.encard) :
    (Census.single length count cap).Exact (number yield (Derivation.leaf '' L)) cap := by
  have hextent : ∀ w ∈ L, Bits.extent w = min length inf := fun w hw => by rw [Bits.extent, hL w hw]
  apply Exact.single
  · intro n hn hne
    rw [Derivation.number_leaf, number_eq_zero]
    intro w hw
    have hw := hextent w hw
    rw [id]
    omega
  · intro hcap
    rw [Derivation.number_leaf, number]
    have hall : {w ∈ L | Bits.extent (id w) = length} = L := by
      refine Set.ext fun w => and_iff_left_of_imp fun hw => ?_
      have hw := hextent w hw
      rw [id]
      omega
    rw [hall]
    exact hcount hcap

/-! ## Trees -/

namespace Tree

variable {cap : Nat} {f : Nat → ℕ∞} {counted c : Census}

theorem exact_censusAlt {ts : List (Tree Note)}
    (hts : ∀ t ∈ ts, ∀ c, t.census cap = some c → c.Exact (number yield t.derivations) cap)
    (hcounted : counted.Exact f cap) (h : censusAlt cap ts counted = some c) :
    c.Exact (fun n => f n + ((ts.map derivations).map fun A => number yield A n).sum) cap := by
  induction ts generalizing counted f with
  | nil =>
    rw [← Option.some.inj h]
    exact hcounted.congr fun n _ => add_zero _
  | cons t ts ih =>
    simp only [censusAlt, Option.bind_eq_bind, Option.bind_eq_some_iff] at h
    obtain ⟨d, hd, next, hnext, hrest⟩ := h
    refine (ih (fun u hu => hts u (List.mem_cons_of_mem t hu))
      (hcounted.union (hts t List.mem_cons_self d hd) hnext)
      hrest).congr fun n _ => ?_
    rw [List.map_cons, List.map_cons, List.sum_cons, add_assoc]

theorem exact_censusSeq (hcap : cap ≤ inf) {ts : List (Tree Note)} {As : List (Set Derivation)}
    (hts : ∀ t ∈ ts, ∀ c, t.census cap = some c → c.Exact (number yield t.derivations) cap)
    (hcounted : counted.Exact (number yieldAll (sequences As)) cap)
    (h : censusSeq cap ts counted = some c) :
    c.Exact (number yieldAll (sequences (As ++ ts.map derivations))) cap := by
  induction ts generalizing counted As with
  | nil =>
    rw [← Option.some.inj h, List.map_nil, List.append_nil]
    exact hcounted
  | cons t ts ih =>
    rw [censusSeq] at h
    split at h
    case isTrue hempty =>
      -- what is too long already stays so
      have hnone : Census.Exact [] (number yieldAll (sequences As)) cap :=
        List.isEmpty_iff.1 hempty ▸ hcounted
      rw [← Option.some.inj h, List.isEmpty_iff.1 hempty]
      exact Census.Exact.nil fun n hn => Derivation.number_sequences_eq_zero (fun n hn =>
        hnone.eq_zero hn) _ hn
    case isFalse =>
      simp only [Option.bind_eq_bind, Option.bind_eq_some_iff] at h
      obtain ⟨d, hd, next, hnext, hrest⟩ := h
      have hexact : next.Exact (number yieldAll (sequences (As ++ [t.derivations]))) cap :=
        (hcounted.concat hcap (hts t List.mem_cons_self d hd) hnext).congr fun n _ =>
          Derivation.number_sequences_append As t.derivations n
      have htail := ih (fun u hu => hts u (List.mem_cons_of_mem t hu)) hexact hrest
      rwa [List.append_assoc] at htail

/-- The census of a tree counts its derivations. -/
theorem exact_census {t : Tree Note} (ht : t.Valid) (hflush : t.Flush) (hcap : cap ≤ inf)
    (hlengths : cap < inf ∨ t.Each fun s => s.kind.Representable) (h : t.census cap = some c) :
    c.Exact (number yield t.derivations) cap := by
  induction t generalizing c with
  | lit n l =>
    rw [← Option.some.inj h]
    refine Census.Exact.leaves (fun w hw => Literal.length_of_spells ht.root.2 hw)
      (hlengths.imp_right (·.root)) fun _ => ?_
    have hplain : l.IsPlain ∨ n.lead = 0 := hflush.root
    rw [Literal.variantCount_eq hplain, Literal.encard_spells ht.root.2]
    exact Near.of_min_eq (by rw [Nat.min_assoc, Nat.min_self])
  | any n bits =>
    change (if 64 ≤ bits ∧ bits ≤ cap then none
      else some (Census.single bits (2 ^ min bits 63) cap)) = some c at h
    split at h
    case isTrue => exact absurd h (by simp)
    case isFalse hbits =>
      rw [← Option.some.inj h]
      refine Census.Exact.leaves (fun w hw => hw) (hlengths.imp_right (·.root)) fun hfits => ?_
      have hmin : min bits 63 = bits := by omega
      rw [hmin, encard_any]
      exact Near.refl _
  | range n lo hi =>
    rw [← Option.some.inj h]
    refine Census.Exact.leaves ?_ (Or.inr (by decide)) fun _ =>
      Near.of_eq (encard_range ht.root).symm
    rintro w ⟨b, -, -, rfl⟩
    exact Bits.length_ofByte b
  | anchor n a =>
    rw [← Option.some.inj h]
    have hleaf : (node n (.anchor a) : Tree Note).derivations = Derivation.leaf '' {[]} :=
      Set.image_singleton.symm
    rw [hleaf]
    refine Census.Exact.leaves ?_ (Or.inr (Nat.zero_le _)) fun _ => Near.of_eq ?_
    · rintro w rfl
      rfl
    · rw [Set.encard_singleton, Nat.cast_one]
  | alt n ts ih =>
    change censusAlt cap ts [] = some c at h
    have hexact :=
      exact_censusAlt
        (fun t hts c hc => ih t hts (ht.sub hts) (hflush.sub hts)
          (hlengths.imp_right (·.sub hts)) hc)
        (Census.Exact.nil (f := fun _ => 0) fun _ _ => rfl) h
    refine hexact.congr fun m _ => ?_
    rw [derivations_node, zero_add]
    exact Derivation.number_choices ..
  | seq n ts ih =>
    change censusSeq cap ts (Census.single 0 1 cap) = some c at h
    have hexact := exact_censusSeq hcap
      (fun t hts c hc => ih t hts (ht.sub hts) (hflush.sub hts) (hlengths.imp_right (·.sub hts)) hc)
        (Census.Exact.sequences_nil cap) h
    refine hexact.congr fun m _ => ?_
    rw [derivations_node]
    exact Derivation.number_parts ..
  | rep n t r ih =>
    have hmem : t ∈ (Kind.rep t r).subs := List.mem_singleton_self t
    obtain ⟨unit, hunit, hrep⟩ := Option.bind_eq_some_iff.1 h
    have hexact := ih (ht.sub hmem) (hflush.sub hmem) (hlengths.imp_right (·.sub hmem)) hunit
    refine (hexact.repetition hcap hrep).congr fun m _ => ?_
    rw [derivations_node]
    exact Derivation.number_parts ..
  | ctx n d t ih =>
    have hmem : t ∈ (Kind.ctx d t).subs := List.mem_singleton_self t
    exact ih (ht.sub hmem) (hflush.sub hmem) (hlengths.imp_right (·.sub hmem)) h

end Tree

end Sigil
