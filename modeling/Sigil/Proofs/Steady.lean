import Sigil.Proofs.Matching

namespace Sigil

/-- Where the buffer holds a string of the language before the limit, `step` matches, though perhaps
another one. -/
def Answers (data : Buffer) (limit : Nat) (step : Nat → Option Nat) (L : Language Bool) : Prop :=
  ∀ pos, ∀ w ∈ L, pos + w.length ≤ limit → data.holdsBits w pos = true → (step pos).isSome = true

/-- What something else can follow has instances of one length only, and no condition is made on the
position. -/
def Kind.Steady : Kind BitRange → Prop
  | anchor _ => False
  | seq subs => ∀ s ∈ subs.dropLast, s.Degenerate
  | rep sub _ => sub.Degenerate
  | _ => True

instance : (k : Kind BitRange) → Decidable k.Steady
  | .anchor _ => inferInstanceAs (Decidable False)
  | .seq subs => inferInstanceAs (Decidable (∀ s ∈ subs.dropLast, s.Degenerate))
  | .rep sub _ => inferInstanceAs (Decidable sub.Degenerate)
  | .lit _ | .any _ | .range .. | .alt _ | .ctx .. => inferInstanceAs (Decidable True)

section

variable {data : Buffer} {limit pos stop : Nat} {step : Nat → Option Nat} {L : Language Bool}
  {range : BitRange}

theorem BitRange.Bounds.length_eq (h : range.Bounds L) (hone : range.Degenerate) {w : Bits}
    (hw : w ∈ L) (hinf : w.length ≤ inf) : w.length = range.low := by
  have hlow := h.low_le_extent hw
  have hhigh := h.extent_le_high hw
  unfold Bits.extent at *
  unfold BitRange.Degenerate at hone
  omega

/-- Where all instances have one length, so have all matches. -/
theorem Reads.stop_eq (h : Reads data limit step L) (hinf : limit ≤ inf) (hbounds : range.Bounds L)
    (hone : range.Degenerate) (hpos : pos ≤ limit) (hstop : step pos = some stop) :
    stop = pos + range.low := by
  obtain ⟨hle, w, hw, rfl, -⟩ := h pos stop hpos hstop
  rw [hbounds.length_eq hone hw (by omega)]

theorem answers_foldlM {α : Type} {step : α → Nat → Option Nat} {language : α → Language Bool}
    {sample : α → BitRange} {subs : List α} (hinf : limit ≤ inf)
    (hreads : ∀ s ∈ subs, Reads data limit (step s) (language s))
    (hbounds : ∀ s ∈ subs, (sample s).Bounds (language s))
    (h : ∀ s ∈ subs, Answers data limit (step s) (language s))
    (hsteady : ∀ range ∈ (subs.map sample).dropLast, range.Degenerate) :
    Answers data limit (fun pos => subs.foldlM (fun pos s => step s pos) pos)
      (subs.map language).prod := by
  induction subs with
  | nil => exact fun _ _ _ _ _ => rfl
  | cons s subs ih =>
    intro pos w hw hfits hold
    rw [List.map_cons, List.prod_cons] at hw
    obtain ⟨x, hx, y, hy, rfl⟩ := Language.mem_mul.1 hw
    rw [List.length_append] at hfits
    rw [Buffer.holdsBits_append] at hold
    obtain ⟨stop, hstop⟩ :=
      Option.isSome_iff_exists.1 (h s List.mem_cons_self pos x hx (by omega) hold.1)
    simp only [List.foldlM_cons, hstop, Option.bind_eq_bind, Option.bind_some]
    cases subs with
    | nil => rfl
    | cons s' subs =>
      -- another element follows, so `s` took as much as the instance asks for
      have hone : (sample s).Degenerate := hsteady _ (by simp)
      have heq := (hreads s List.mem_cons_self).stop_eq hinf (hbounds s List.mem_cons_self) hone
        (by omega) hstop
      rw [heq, ← (hbounds s List.mem_cons_self).length_eq hone hx (by omega)]
      exact ih (fun t ht => hreads t (List.mem_cons_of_mem s ht)) (fun t ht =>
        hbounds t (List.mem_cons_of_mem s ht))
        (fun t ht => h t (List.mem_cons_of_mem s ht))
        (fun range hrange => hsteady range (List.mem_cons_of_mem _ hrange)) (pos + x.length) y hy
          (by omega) hold.2

theorem le_greedy (step : Nat → Option Nat) (r : Repeat) (fuel pos count : Nat) :
    count ≤ (greedy step r fuel pos count).2 := by
  induction fuel generalizing pos count with
  | zero => exact le_rfl
  | succ fuel ih =>
    unfold greedy
    split
    case isTrue => exact le_rfl
    case isFalse =>
      cases step pos with
      | none => exact le_rfl
      | some stop =>
        dsimp only
        split
        case isTrue => exact (Nat.le_succ count).trans (Nat.le_max_left ..)
        case isFalse => exact (Nat.le_succ count).trans (ih stop (count + 1))

/-- A repetition goes on at least as long as the buffer holds a power of the language. -/
theorem min_le_greedy {r : Repeat} (hinf : limit ≤ inf) (hreads : Reads data limit step L)
    (hbounds : range.Bounds L) (hone : range.Degenerate) (h : Answers data limit step L) {n : Nat}
    {w : Bits} (hw : w ∈ L ^ n) {fuel count : Nat} (hmin : r.min ≤ count + n)
    (hmax : r.AtMost (count + n)) (hfits : pos + w.length ≤ limit)
    (hold : data.holdsBits w pos = true) (hfuel : limit - pos < fuel) :
    r.min ≤ (greedy step r fuel pos count).2 := by
  induction n generalizing w fuel pos count with
  | zero => exact hmin.trans (le_greedy step r fuel pos count)
  | succ n ih =>
    rw [pow_succ'] at hw
    obtain ⟨x, hx, y, hy, rfl⟩ := Language.mem_mul.1 hw
    rw [List.length_append] at hfits
    rw [Buffer.holdsBits_append] at hold
    obtain ⟨stop, hstop⟩ := Option.isSome_iff_exists.1 (h pos x hx (by omega) hold.1)
    have heq := hreads.stop_eq hinf hbounds hone (by omega) hstop
    rw [← hbounds.length_eq hone hx (by omega)] at heq
    obtain ⟨fuel, rfl⟩ : ∃ more, fuel = more + 1 := ⟨fuel - 1, by omega⟩
    have hallowed : ¬ r.max.any (· ≤ count) = true := by
      rw [Option.any_eq_true]
      rintro ⟨max, hmem, hle⟩
      have hlt := hmax max hmem
      have hle := of_decide_eq_true hle
      omega
    unfold greedy
    rw [if_neg hallowed, hstop]
    dsimp only
    split
    case isTrue => exact Nat.le_max_right ..
    case isFalse hmoved =>
      rw [heq] at hmoved ⊢
      have hcount : count + 1 + n = count + (n + 1) := by omega
      exact ih hy (hcount ▸ hmin) (hcount ▸ hmax) (by omega) hold.2 (by omega)

theorem Kind.answers_stopAt {α : Type} {step : α → Nat → Option Nat} {language : α → Language Bool}
    {sample : α → BitRange} {k : Kind α} (hk : k.Valid) (hsteady : (k.map sample).Steady)
    (hinf : limit ≤ inf) (hreads : ∀ s ∈ k.subs, Reads data limit (step s) (language s))
    (hbounds : ∀ s ∈ k.subs, (sample s).Bounds (language s))
    (h : ∀ s ∈ k.subs, Answers data limit (step s) (language s)) :
    Answers data limit ((k.map step).stopAt data limit) (k.map language).language := by
  intro pos w hw hfits hold
  cases k with
  | lit l =>
    have hlength := Literal.length_of_spells hk.2 hw
    have hoccurs := (Literal.occursAt_iff hk.2 hk.1 data pos limit).2 ⟨by omega, w, hw, hold⟩
    simp only [map, stopAt, if_pos hoccurs, Option.isSome_some]
  | any bits =>
    have hlength : w.length = bits := hw
    rw [hlength] at hfits
    simp only [map, stopAt, if_pos hfits, Option.isSome_some]
  | range lo hi =>
    obtain ⟨b, hlo, hhi, rfl⟩ := hw
    rw [Bits.length_ofByte] at hfits
    have hbyte := (Buffer.byteAt?_eq_some_iff data pos b).2 hold
    simp [map, stopAt, hfits, hbyte, hlo, hhi]
  | anchor a => exact hsteady.elim
  | alt subs =>
    simp only [map, stopAt, List.findSome?_map, List.findSome?_isSome_iff]
    obtain ⟨s, hs, hmem⟩ := mem_sum_map.1 hw
    exact ⟨s, hs, h s hs pos w hmem hfits hold⟩
  | seq subs =>
    simp only [map, stopAt, List.foldlM_map]
    exact answers_foldlM hinf hreads hbounds h hsteady pos w hw hfits hold
  | rep s r =>
    have hs : s ∈ (Kind.rep s r).subs := List.mem_singleton_self s
    obtain ⟨n, hn, hpow⟩ := hw
    have hmin : r.min ≤ (greedy (step s) r (limit - pos + 1) pos 0).2 := by
      rw [← Nat.zero_add n] at hn
      exact min_le_greedy hinf (hreads s hs) (hbounds s hs) hsteady (h s hs) hpow hn.1
        hn.2 hfits hold
        (Nat.lt_succ_self _)
    simp only [map, stopAt, plainRepeat, if_pos hmin, Option.isSome_some]
  | ctx d s => exact h s (List.mem_singleton_self s) pos w hw hfits hold

end

namespace Tree

/-- Each layer of the tree is steady. -/
def Steady (t : Tree Note) : Prop := t.Each fun s => (s.kind.map sample).Steady

/-- A steady tree matches wherever one of its instances stands. -/
theorem answers_plainAt {t : Tree Note} (hvalid : t.Valid) (hfaithful : t.Faithful)
    (hsteady : t.Steady) {data : Buffer} {limit : Nat} (hlimit : limit ≤ data.bitSize)
    (hinf : limit ≤ inf) :
    Answers data limit (t.plainAt data limit) t.language := by
  induction t using induct_subs with
  | node n k ih =>
    intro pos w hw
    rw [plainAt_node]
    rw [language_node] at hw
    exact Kind.answers_stopAt hvalid.root hsteady.root hinf (fun s hs =>
      reads_plainAt (hvalid.sub hs) hlimit)
      (fun s hs => Faithful.bounds (hfaithful.sub hs) (hvalid.sub hs))
      (fun s hs => ih s hs (hvalid.sub hs) (hfaithful.sub hs) (hsteady.sub hs)) pos w hw

end Tree

end Sigil
