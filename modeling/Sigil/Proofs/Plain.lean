import Mathlib.Algebra.BigOperators.Group.List.Defs
import Sigil.MatchMode
import Sigil.Hit
import Sigil.Proofs.Lengths

namespace Sigil

theorem findSome?_congr {α β : Type} {f g : α → Option β} {xs : List α} (h : ∀ x ∈ xs, f x = g x) :
    xs.findSome? f = xs.findSome? g := by
  rw [← List.head?_filterMap, ← List.head?_filterMap, List.filterMap_congr h]

/-- Applies `step` again and again, each time where the last application stopped, until it fails,
stays where it is or has been applied as often as allowed. An application that stays counts as often
as is still needed. -/
def greedy (step : Nat → Option Nat) (r : Repeat) : (fuel pos count : Nat) → Nat × Nat
  | 0, pos, count => (pos, count)
  | fuel + 1, pos, count =>
    if r.max.any (· ≤ count) then (pos, count)
    else match step pos with
      | none => (pos, count)
      | some stop =>
        if stop = pos then (pos, max (count + 1) r.min) else greedy step r fuel stop (count + 1)

theorem atMost_zero (r : Repeat) : r.AtMost 0 := fun m _ => Nat.zero_le m

theorem atMost_succ {r : Repeat} {count : Nat} (h : ¬ r.max.any (· ≤ count) = true) :
    r.AtMost (count + 1) := by
  intro m hm
  rw [Option.any_eq_true] at h
  by_contra hlt
  have hle : m ≤ count := by omega
  exact h ⟨m, hm, decide_eq_true hle⟩

/-- A count that is not too high is allowed once what is still needed is added. -/
theorem allows_max {r : Repeat} {count : Nat} (hr : r.AtMost r.min) (h : r.AtMost count) :
    r.Allows (max count r.min) := by
  refine ⟨Nat.le_max_right .., ?_⟩
  intro m hm
  exact Nat.max_le.2 ⟨h m hm, hr m hm⟩

/-- Where as many applications of `step` as possible stop, if there are enough of them. -/
def plainRepeat (step : Nat → Option Nat) (r : Repeat) (limit pos : Nat) : Option Nat :=
  let (stop, count) := greedy step r (limit - pos + 1) pos 0
  if r.min ≤ count then some stop else none

/-- Where a match of one layer stops, from where the matches of its sub-patterns do. -/
def Kind.stopAt (data : Buffer) (limit : Nat) : Kind (Nat → Option Nat) → Nat → Option Nat
  | lit l, pos => if l.occursAt 0 data pos limit then some (pos + l.length) else none
  | any bits, pos => if pos + bits ≤ limit then some (pos + bits) else none
  | range lo hi, pos =>
    if pos + 8 ≤ limit ∧ (data.byteAt? pos).any fun b => decide (lo ≤ b ∧ b ≤ hi) then
      some (pos + 8)
    else none
  | anchor a, pos => if a.holds data pos then some pos else none
  | alt subs, pos => subs.findSome? fun sub => sub pos
  | seq subs, pos => subs.foldlM (fun pos sub => sub pos) pos
  | rep sub r, pos => plainRepeat sub r limit pos
  | ctx _ sub, pos => sub pos

def Hit.between (start stop : Nat) : Hit := ⟨start, stop - start⟩

namespace Tree

variable {ν : Type}

def plainAt (data : Buffer) (limit : Nat) (t : Tree ν) : Nat → Option Nat :=
  t.fold (Kind.stopAt data limit)

def plainHit (t : Tree ν) (data : Buffer) (limit pos : Nat) : Option Hit :=
  (t.plainAt data limit pos).map (Hit.between pos)

/-- Matches a region of a buffer. A search takes the first match at an offset `low + 8 * k` that is
not past the end of the region. -/
def plainIn (t : Tree ν) (data : Buffer) (region : BitRange) (mode : MatchMode) : Option Hit :=
  let limit := min region.high data.bitSize
  if ¬ region.Defined ∨ data.bitSize < region.low then none
  else match mode with
    | .anchored => t.plainHit data limit region.low
    | .full => (t.plainHit data limit region.low).filter fun hit => hit.offset + hit.length == limit
    | .search =>
      (List.range' region.low ((limit - region.low) / 8 + 1) 8).findSome? (t.plainHit data limit)

/-- A hit in a region is a match from its offset, which is where the region starts unless it was
searched for. -/
theorem plainAt_of_plainIn {t : Tree ν} {data : Buffer} {region : BitRange} {mode : MatchMode}
    {hit : Hit} (h : t.plainIn data region mode = some hit) :
    ∃ stop, hit = Hit.between hit.offset stop ∧ hit.offset ≤ min region.high data.bitSize ∧
      t.plainAt data (min region.high data.bitSize) hit.offset = some stop ∧
        (mode ≠ .search → hit.offset = region.low) := by
  unfold plainIn at h
  dsimp only at h
  split at h
  case isTrue => simp at h
  case isFalse hregion =>
    rw [not_or, not_not, Nat.not_lt] at hregion
    have hlow : region.low ≤ min region.high data.bitSize := Nat.le_min.2 hregion
    cases mode with
    | anchored =>
      obtain ⟨stop, hstop, rfl⟩ := Option.map_eq_some_iff.1 h
      exact ⟨stop, rfl, hlow, hstop, fun _ => rfl⟩
    | full =>
      obtain ⟨stop, hstop, rfl⟩ := Option.map_eq_some_iff.1 (Option.filter_eq_some_iff.1 h).1
      exact ⟨stop, rfl, hlow, hstop, fun _ => rfl⟩
    | search =>
      obtain ⟨pos, hmem, hhit⟩ := List.exists_of_findSome?_eq_some h
      obtain ⟨k, hk, rfl⟩ := List.mem_range'.1 hmem
      obtain ⟨stop, hstop, rfl⟩ := Option.map_eq_some_iff.1 hhit
      exact ⟨stop, rfl, by dsimp only [Hit.between]; omega, hstop, fun hmode => absurd rfl hmode⟩

theorem plainAt_node (data : Buffer) (limit : Nat) (n : ν) (k : Kind (Tree ν)) :
    (node n k).plainAt data limit = (k.map (plainAt data limit)).stopAt data limit := fold_node ..

end Tree

/-! ## What a match reads -/

def Reads (data : Buffer) (limit : Nat) (step : Nat → Option Nat) (L : Language Bool) : Prop :=
  ∀ pos stop, pos ≤ limit → step pos = some stop →
    stop ≤ limit ∧ ∃ w ∈ L, stop = pos + w.length ∧ data.holdsBits w pos = true

def Forward (limit : Nat) (step : Nat → Option Nat) : Prop :=
  ∀ pos stop, pos ≤ limit → step pos = some stop → pos ≤ stop ∧ stop ≤ limit

theorem Reads.forward {data : Buffer} {limit : Nat} {step : Nat → Option Nat} {L : Language Bool}
    (h : Reads data limit step L) : Forward limit step := by
  intro pos stop hpos hstop
  obtain ⟨hle, w, -, hsum, -⟩ := h pos stop hpos hstop
  exact ⟨hsum ▸ Nat.le_add_right .., hle⟩

/-- Each application but the last moves forward, so more fuel than there are bits to the limit is
never used. -/
theorem greedy_fuel {limit : Nat} {step : Nat → Option Nat} (h : Forward limit step) (r : Repeat)
    {fuel more pos : Nat} (count : Nat) (hpos : pos ≤ limit) (hfuel : limit - pos < fuel)
    (hmore : limit - pos < more) : greedy step r more pos count = greedy step r fuel pos count := by
  induction fuel generalizing more pos count with
  | zero => omega
  | succ fuel ih =>
    obtain _ | more := more
    · omega
    · unfold greedy
      split
      case isTrue => rfl
      case isFalse =>
        cases hstop : step pos with
        | none => rfl
        | some stop =>
          obtain ⟨hle, hlimit⟩ := h pos stop hpos hstop
          dsimp only
          split
          case isTrue => rfl
          case isFalse hmoved => exact ih (count + 1) hlimit (by omega) (by omega)

theorem Buffer.exists_holdsBits {data : Buffer} {pos count : Nat} (h : pos + count ≤ data.bitSize) :
    ∃ w : Bits, w.length = count ∧ data.holdsBits w pos = true := by
  refine ⟨(data.bits.drop pos).take count, ?_, ?_⟩
  · rw [List.length_take, List.length_drop, length_bits]
    omega
  · rw [holdsBits_iff]
    exact List.take_prefix count _

theorem reads_foldlM {α : Type} {data : Buffer} {limit : Nat} {step : α → Nat → Option Nat}
    {language : α → Language Bool} {subs : List α}
    (h : ∀ s ∈ subs, Reads data limit (step s) (language s)) :
    Reads data limit (fun pos => subs.foldlM (fun pos s => step s pos) pos)
      (subs.map language).prod := by
  induction subs with
  | nil =>
    intro pos stop hpos hstop
    rw [← Option.some.inj hstop]
    exact ⟨hpos, [], Language.nil_mem_one, rfl, rfl⟩
  | cons s subs ih =>
    intro pos stop hpos hstop
    simp only [List.foldlM_cons, Option.bind_eq_bind, Option.bind_eq_some_iff] at hstop
    obtain ⟨mid, hmid, hstop⟩ := hstop
    obtain ⟨hle, x, hx, hsum, hold⟩ := h s List.mem_cons_self pos mid hpos hmid
    obtain ⟨hlimit, y, hy, hsum', hold'⟩ :=
      ih (fun t ht => h t (List.mem_cons_of_mem s ht)) mid stop hle hstop
    refine ⟨hlimit, x ++ y, ?_, ?_, ?_⟩
    · rw [List.map_cons, List.prod_cons]
      exact Language.append_mem_mul hx hy
    · rw [hsum', hsum, List.length_append, Nat.add_assoc]
    · rw [Buffer.holdsBits_append, ← hsum]
      exact ⟨hold, hold'⟩

theorem foldlM_replicate_of_stay {α : Type} {step : α → Nat → Option Nat} {s : α} {pos : Nat}
    (h : step s pos = some pos) (n : Nat) :
    (List.replicate n s).foldlM (fun pos s => step s pos) pos = some pos := by
  induction n with
  | zero => rfl
  | succ n ih =>
    rw [List.replicate_succ, List.foldlM_cons, h, Option.bind_eq_bind, Option.bind_some, ih]

/-- A repetition stops where a sequence of as many copies does. The count stays allowed, also where
an application stays and counts for all that are needed: the copies that were not tried stay as
well. -/
theorem greedy_unrolls {α : Type} (step : α → Nat → Option Nat) (s : α) {r : Repeat}
    (hr : r.AtMost r.min) (fuel pos : Nat) {count : Nat} (hcount : r.AtMost count) :
    r.AtMost (greedy (step s) r fuel pos count).2 ∧
      ∃ n, (greedy (step s) r fuel pos count).2 = count + n ∧
      (List.replicate n s).foldlM (fun pos s => step s pos) pos =
        some (greedy (step s) r fuel pos count).1 := by
  induction fuel generalizing pos count with
  | zero => exact ⟨hcount, 0, rfl, rfl⟩
  | succ fuel ih =>
    unfold greedy
    split
    case isTrue => exact ⟨hcount, 0, rfl, rfl⟩
    case isFalse hmax =>
      have hnext : r.AtMost (count + 1) := atMost_succ hmax
      split
      case h_1 => exact ⟨hcount, 0, rfl, rfl⟩
      case h_2 stop hstop =>
        split
        case isTrue hstay =>
          subst hstay
          refine ⟨(allows_max hr hnext).2, max (count + 1) r.min - count, ?_,
            foldlM_replicate_of_stay hstop _⟩
          dsimp only
          omega
        case isFalse =>
          obtain ⟨hatMost, n, htotal, hunroll⟩ := ih stop hnext
          refine ⟨hatMost, n + 1, by omega, ?_⟩
          rw [List.replicate_succ, List.foldlM_cons, hstop, Option.bind_eq_bind,
            Option.bind_some, hunroll]

theorem plainRepeat_unrolls {α : Type} {step : α → Nat → Option Nat} {s : α} {r : Repeat}
    (hr : r.AtMost r.min) {limit pos stop : Nat}
    (h : plainRepeat (step s) r limit pos = some stop) :
    ∃ n, r.Allows n ∧ (List.replicate n s).foldlM (fun pos s => step s pos) pos = some stop := by
  unfold plainRepeat at h
  dsimp only at h
  split at h
  case isFalse => simp at h
  case isTrue hmin =>
    obtain ⟨hatMost, n, htotal, hunroll⟩ :=
      greedy_unrolls step s hr (limit - pos + 1) pos (atMost_zero r)
    rw [Nat.zero_add] at htotal
    rw [htotal] at hmin hatMost
    exact ⟨n, ⟨hmin, hatMost⟩, hunroll.trans h⟩

theorem mem_sum_map {α : Type} {language : α → Language Bool} {subs : List α} {w : Bits} :
    w ∈ (subs.map language).sum ↔ ∃ s ∈ subs, w ∈ language s := by
  induction subs with
  | nil => simp
  | cons t subs ih =>
    simp only [List.mem_cons, exists_eq_or_imp, ← ih]
    exact Iff.rfl

theorem Kind.reads_stopAt {α : Type} {data : Buffer} {limit : Nat} {step : α → Nat → Option Nat}
    {language : α → Language Bool} {k : Kind α} (hk : k.Valid) (hlimit : limit ≤ data.bitSize)
    (h : ∀ s ∈ k.subs, Reads data limit (step s) (language s)) :
    Reads data limit ((k.map step).stopAt data limit) (k.map language).language := by
  intro pos stop hpos hstop
  cases k with
  | lit l =>
    simp only [map, stopAt] at hstop
    split at hstop
    case isFalse => simp at hstop
    case isTrue hoccurs =>
      obtain ⟨hle, w, hw, hold⟩ := (Literal.occursAt_iff hk.2 hk.1 data pos limit).1 hoccurs
      rw [← Option.some.inj hstop]
      exact ⟨hle, w, hw, by rw [Literal.length_of_spells hk.2 hw], hold⟩
  | any bits =>
    simp only [map, stopAt] at hstop
    split at hstop
    case isFalse => simp at hstop
    case isTrue hle =>
      obtain ⟨w, hw, hold⟩ := Buffer.exists_holdsBits (hle.trans hlimit)
      rw [← Option.some.inj hstop]
      exact ⟨hle, w, hw, by rw [hw], hold⟩
  | range lo hi =>
    simp only [map, stopAt] at hstop
    split at hstop
    case isFalse => simp at hstop
    case isTrue hany =>
      obtain ⟨hle, hbyte⟩ := hany
      obtain ⟨b, hb, hrange⟩ := (Option.any_eq_true ..).1 hbyte
      obtain ⟨hlo, hhi⟩ : lo ≤ b ∧ b ≤ hi := of_decide_eq_true hrange
      have hold : data.holdsBits (Bits.ofByte b) pos = true :=
        (Buffer.byteAt?_eq_some_iff data pos b).1 hb
      rw [← Option.some.inj hstop]
      exact ⟨hle, Bits.ofByte b, ⟨b, hlo, hhi, rfl⟩, by rw [Bits.length_ofByte], hold⟩
  | anchor a =>
    simp only [map, stopAt] at hstop
    split at hstop
    case isFalse => simp at hstop
    case isTrue =>
      rw [← Option.some.inj hstop]
      exact ⟨hpos, [], Language.nil_mem_one, rfl, rfl⟩
  | alt subs =>
    simp only [map, stopAt, List.findSome?_map] at hstop
    obtain ⟨s, hs, hstep⟩ := List.exists_of_findSome?_eq_some hstop
    obtain ⟨hle, w, hw, hsum, hold⟩ := h s hs pos stop hpos hstep
    exact ⟨hle, w, mem_sum_map.2 ⟨s, hs, hw⟩, hsum, hold⟩
  | seq subs =>
    simp only [map, stopAt, List.foldlM_map] at hstop
    exact reads_foldlM h pos stop hpos hstop
  | rep s r =>
    obtain ⟨n, hallows, hunroll⟩ := plainRepeat_unrolls hk hstop
    obtain ⟨hle, w, hw, hsum, hold⟩ :=
      reads_foldlM (fun t ht => List.eq_of_mem_replicate ht ▸ h s (by simp [subs])) pos stop
        hpos hunroll
    rw [List.map_replicate, List.prod_replicate] at hw
    exact ⟨hle, w, ⟨n, hallows, hw⟩, hsum, hold⟩
  | ctx d s => exact h s (by simp [subs]) pos stop hpos hstop

theorem Tree.reads_plainAt {ν : Type} {t : Tree ν} (ht : t.Valid) {data : Buffer} {limit : Nat}
    (hlimit : limit ≤ data.bitSize) : Reads data limit (t.plainAt data limit) t.language := by
  induction t using induct_subs with
  | node n k ih =>
    rw [plainAt_node, language_node]
    exact Kind.reads_stopAt ht.root hlimit fun s hs => ih s hs (ht.sub hs)

end Sigil
