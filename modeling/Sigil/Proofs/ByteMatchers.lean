import Mathlib.Data.List.Find
import Sigil.Matcher
import Sigil.Proofs.Containment

namespace Sigil

namespace Offset

/-- No byte at the offset, or at one that is whole bytes away from it, ends between the last byte
boundary before the limit and the limit. -/
def Shown (limit pos : Nat) : Prop := Aligned pos ∨ limit % 8 < pos % 8

instance (limit pos : Nat) : Decidable (Shown limit pos) := inferInstanceAs (Decidable (_ ∨ _))

variable {limit pos length : Nat}

theorem shown_of_aligned (h : Aligned limit) (pos : Nat) : Shown limit pos := by
  unfold Shown Aligned at *
  omega

/-- A byte that ends before the limit ends before the last byte boundary too. -/
theorem Shown.le_iff (h : Shown limit pos) : pos + 8 ≤ 8 * toByte limit ↔ pos + 8 ≤ limit := by
  unfold Shown Aligned toByte at *
  omega

theorem Shown.add (h : Shown limit pos) (hlength : Aligned limit ∨ Aligned length) :
    Shown limit (pos + length) := by
  unfold Shown Aligned at *
  omega

end Offset

namespace Buffer

open Offset (Shown)

variable {data : Buffer} {limit pos : Nat}

theorem byteAt?_eq_none (h : data.bitSize < pos + 8) : data.byteAt? pos = none := by
  rw [byteAt?, if_neg (Nat.not_le.2 h)]

/-- At a byte boundary, the byte is one that is stored. -/
theorem byteAt?_mul (data : Buffer) (i : Nat) : data.byteAt? (8 * i) = data[i]? := by
  unfold byteAt? bitSize
  by_cases hi : i < data.size
  · have hlow : (data.getD (i + 1) 0).toNat < 256 := (data.getD (i + 1) 0).toNat_lt
    have hhigh : (256 * (data.getD i 0).toNat + (data.getD (i + 1) 0).toNat) >>> 8 =
        (data.getD i 0).toNat := by
      rw [Nat.shiftRight_eq_div_pow]
      omega
    rw [if_pos (by omega), Nat.mul_div_cancel_left i (by decide), Nat.mul_mod_right, getD_eq hi]
    dsimp only
    rw [Nat.sub_zero, hhigh, UInt8.ofNat_toNat]
  · rw [if_neg (by omega), Array.getElem?_eq_none (Nat.not_lt.1 hi)]

theorem bitSize_take (hlimit : limit ≤ data.bitSize) :
    bitSize (data.take (Offset.toByte limit)) = 8 * Offset.toByte limit := by
  rw [bitSize, size_take, Nat.min_eq_left (toByte_le_size hlimit)]

/-- The whole bytes before the limit show what the buffer holds there. -/
theorem byteAt?_take (hlimit : limit ≤ data.bitSize) (hpos : Shown limit pos) :
    (data.take (Offset.toByte limit)).byteAt? pos =
      if pos + 8 ≤ limit then data.byteAt? pos else none := by
  split
  case isFalse hpast =>
    apply byteAt?_eq_none
    rw [bitSize_take hlimit]
    exact Nat.not_le.1 (mt hpos.le_iff.1 hpast)
  case isTrue hfits =>
    unfold take
    split
    case isTrue => rfl
    case isFalse =>
      ext b
      rw [byteAt?_eq_some_iff, byteAt?_eq_some_iff, holdsBits_extract, Nat.mul_zero, Nat.zero_add]
      rw [Bits.length_ofByte, Nat.mul_zero, Nat.zero_add]
      exact hpos.le_iff.2 hfits

end Buffer

namespace Matcher

variable {cls : UInt8 → Bool} {data : Buffer} {lo hi : UInt8} {pos : Nat}

def inRange (lo hi b : UInt8) : Bool := decide (lo ≤ b ∧ b ≤ hi)

theorem digit_eq : digit = byteClass (inRange 0x30 0x39) :=
  congrArg byteClass (funext fun _ => (Bool.decide_and ..).symm)

theorem lowercase_eq : lowercase = byteClass (inRange 0x61 0x7A) :=
  congrArg byteClass (funext fun _ => (Bool.decide_and ..).symm)

theorem uppercase_eq : uppercase = byteClass (inRange 0x41 0x5A) :=
  congrArg byteClass (funext fun _ => (Bool.decide_and ..).symm)

/-- A byte has no bits outside of the low ones if and only if it is not above them. -/
theorem mask_eq (width : Fin 8) (h : hi.toNat = 2 ^ width.val - 1) :
    mask hi = byteClass (inRange 0 hi) := by
  have hall : ∀ (width : Fin 8) (n : Fin 256),
      (UInt8.ofNat n &&& ~~~UInt8.ofNat (2 ^ width.val - 1) == 0) =
        inRange 0 (UInt8.ofNat (2 ^ width.val - 1)) (UInt8.ofNat n) := by decide +kernel
  refine congrArg byteClass (funext fun b => ?_)
  have hb := hall width ⟨b.toNat, b.toNat_lt⟩
  rwa [← h, UInt8.ofNat_toNat, UInt8.ofNat_toNat] at hb

/-- The matcher of a range is that of the class of its bytes. -/
theorem ofRange?_eq_some {m : Matcher} (h : ofRange? lo hi = some m) :
    m = byteClass (inRange lo hi) := by
  have hbyte : ∀ {b c : UInt8}, b.toNat = c.toNat → b = c := UInt8.toNat_inj.1
  unfold ofRange? at h
  split at h
  case h_11 => cases h
  -- the bounds are told as numbers
  all_goals
    rename_i hlo hhi
    cases h
  case h_1 => rw [hbyte (c := 0x30) hlo, hbyte (c := 0x39) hhi, digit_eq]
  case h_2 => rw [hbyte (c := 0x61) hlo, hbyte (c := 0x7A) hhi, lowercase_eq]
  case h_3 => rw [hbyte (c := 0x41) hlo, hbyte (c := 0x5A) hhi, uppercase_eq]
  all_goals rw [hbyte (c := 0) hlo]
  case h_4 => exact mask_eq 1 hhi
  case h_5 => exact mask_eq 2 hhi
  case h_6 => exact mask_eq 3 hhi
  case h_7 => exact mask_eq 4 hhi
  case h_8 => exact mask_eq 5 hhi
  case h_9 => exact mask_eq 6 hhi
  case h_10 => exact mask_eq 7 hhi

/-! ## Searching -/

/-- A search answers as the matcher does at the first offset, in steps of a byte, at which it
answers at all. Offsets past the end of the buffer may be tried or not. -/
def Scans (m : Matcher) : Prop :=
  ∀ (data : Buffer) (pos count : Nat), data.bitSize < pos + 8 * count →
    m data pos .search = (List.range' pos count 8).findSome? fun offset => m data offset .anchored

theorem Scans.of_step {m : Matcher}
    (hpast : ∀ data pos, data.bitSize < pos → m data pos .search = none)
    (hstep : ∀ data pos,
      m data pos .search = (m data pos .anchored).or (m data (pos + 8) .search)) :
    m.Scans := by
  intro data pos count hcount
  induction count generalizing pos with
  | zero => exact hpast data pos hcount
  | succ count ih =>
    rw [hstep, ih (pos + 8) (by omega), List.range'_succ, List.findSome?_cons]
    cases m data pos .anchored <;> rfl

theorem position_eq_none {first : Nat} (h : data.size ≤ first) :
    position cls data first = none := by
  rw [position, List.drop_eq_nil_of_le h]
  rfl

theorem position_step (cls : UInt8 → Bool) (data : Buffer) (first : Nat) :
    position cls data first =
      if data[first]?.any cls then some first else position cls data (first + 1) := by
  by_cases hfirst : first < data.size
  · rw [position, List.drop_eq_getElem_cons (i := first) hfirst, List.findIdx?_cons,
      Array.getElem?_eq_getElem hfirst, Option.any_some, Array.getElem_toList]
    split
    case isTrue => rfl
    case isFalse =>
      rw [position, Option.map_map]
      congr 1
      funext i
      exact (Nat.add_right_comm first i 1)
  · rw [position_eq_none (Nat.not_lt.1 hfirst), position_eq_none (by omega),
      Array.getElem?_eq_none (Nat.not_lt.1 hfirst)]
    rfl

theorem findByte_eq_none (h : data.bitSize < pos + 8) (fuel : Nat) :
    findByte cls data fuel pos = none := by
  cases fuel with
  | zero => rfl
  | succ fuel => rw [findByte, Buffer.byteAt?_eq_none h]

/-- There is fuel for every byte before the end of the buffer. -/
theorem findByte_step (cls : UInt8 → Bool) (data : Buffer) (pos : Nat) :
    findByte cls data ((data.bitSize - pos) / 8 + 1) pos =
      if (data.byteAt? pos).any cls then some pos
      else findByte cls data ((data.bitSize - (pos + 8)) / 8 + 1) (pos + 8) := by
  by_cases hpos : pos + 8 ≤ data.bitSize
  · obtain ⟨b, hb⟩ := Buffer.exists_byteAt? hpos
    have hfuel : (data.bitSize - pos) / 8 = (data.bitSize - (pos + 8)) / 8 + 1 := by omega
    rw [hfuel, findByte, hb]
    rfl
  · rw [findByte_eq_none (Nat.not_le.1 hpos), findByte_eq_none (by omega),
      Buffer.byteAt?_eq_none (Nat.not_le.1 hpos)]
    rfl

theorem byteClass_of_ne_search (cls : UInt8 → Bool) (data : Buffer) (pos : Nat) {mode : MatchMode}
    (hmode : mode ≠ .search) :
    byteClass cls data pos mode = if (data.byteAt? pos).any cls then some ⟨pos, 8⟩ else none :=
  if_pos hmode

theorem byteClass_search (cls : UInt8 → Bool) (data : Buffer) (pos : Nat) :
    byteClass cls data pos .search =
      if Offset.Aligned pos then
        (position cls data (Offset.toByte pos)).map fun index => ⟨8 * index, 8⟩
      else (findByte cls data ((data.bitSize - pos) / 8 + 1) pos).map (⟨·, 8⟩) :=
  if_neg fun h => h rfl

theorem scans_byteClass (cls : UInt8 → Bool) : (byteClass cls).Scans := by
  refine Scans.of_step (fun data pos hpast => ?_) fun data pos => ?_
  · rw [byteClass_search, findByte_eq_none (by omega), position_eq_none]
    · split <;> rfl
    · unfold Buffer.bitSize at hpast
      unfold Offset.toByte
      omega
  · have hanchored : MatchMode.anchored ≠ .search := MatchMode.noConfusion
    rw [byteClass_of_ne_search cls data pos hanchored, byteClass_search, byteClass_search]
    by_cases haligned : Offset.Aligned pos
    · obtain ⟨i, rfl⟩ := Nat.dvd_of_mod_eq_zero haligned
      have hbyte : Offset.toByte (8 * i) = i := Nat.mul_div_cancel_left i (by decide)
      have hnext : Offset.Aligned (8 * i + 8) := Nat.mul_mod_right 8 (i + 1)
      have hnextByte : Offset.toByte (8 * i + 8) = i + 1 :=
        Nat.mul_div_cancel_left (i + 1) (by decide)
      rw [if_pos haligned, if_pos hnext, hbyte, hnextByte, position_step, Buffer.byteAt?_mul]
      split <;> rfl
    · have hnext : ¬ Offset.Aligned (pos + 8) := by
        unfold Offset.Aligned at *
        omega
      rw [if_neg haligned, if_neg hnext, findByte_step]
      split <;> rfl

end Matcher

/-! ## Trees with a matcher -/

/-- What an option is filtered by matters for what it holds alone. -/
theorem filter_congr {α : Type} {o : Option α} {p q : α → Bool} (h : ∀ a, o = some a → p a = q a) :
    o.filter p = o.filter q := by
  cases o with
  | none => rfl
  | some a => rw [Option.filter_some, Option.filter_some, h a rfl]

theorem filter_eq_self {α : Type} {o : Option α} {p : α → Bool} (h : ∀ a, o = some a → p a = true) :
    o.filter p = o := by
  ext a
  rw [Option.filter_eq_some_iff]
  exact and_iff_left_of_imp (h a)

namespace Tree

open Matcher
open Offset (Shown)

variable {ν : Type} {data : Buffer} {lo hi : UInt8} {cls : UInt8 → Bool} {limit pos : Nat}
  {note : Note} {hit : Hit}

def ReadsByte (t : Tree ν) (cls : UInt8 → Bool) : Prop :=
  ∀ data limit pos, limit ≤ data.bitSize →
    t.plainAt data limit pos =
      if pos + 8 ≤ limit ∧ (data.byteAt? pos).any cls = true then some (pos + 8) else none

theorem readsByte_range (n : ν) (lo hi : UInt8) :
    (node n (.range lo hi)).ReadsByte (inRange lo hi) :=
  fun _ _ _ _ => rfl

namespace ReadsByte

variable {t : Tree ν}

theorem plainHit (h : t.ReadsByte cls) (hlimit : limit ≤ data.bitSize) (pos : Nat) :
    t.plainHit data limit pos =
      if pos + 8 ≤ limit ∧ (data.byteAt? pos).any cls = true then some ⟨pos, 8⟩ else none := by
  rw [Tree.plainHit, h data limit pos hlimit]
  split
  case isTrue => rw [Option.map_some, Hit.between, Nat.add_sub_cancel_left]
  case isFalse => rfl

/-- A hit is one byte before the limit. -/
theorem eq_of_plainHit (h : t.ReadsByte cls) (hlimit : limit ≤ data.bitSize)
    (hhit : t.plainHit data limit pos = some hit) : hit = ⟨pos, 8⟩ ∧ pos + 8 ≤ limit := by
  rw [h.plainHit hlimit] at hhit
  split at hhit
  case isTrue hfits => exact ⟨(Option.some.inj hhit).symm, hfits.1⟩
  case isFalse => cases hhit

theorem forward (h : t.ReadsByte cls) (hlimit : limit ≤ data.bitSize) :
    Forward limit (t.plainAt data limit) := by
  intro pos stop _ hstop
  rw [h data limit pos hlimit] at hstop
  split at hstop
  case isTrue hfits =>
    rw [← Option.some.inj hstop]
    exact ⟨Nat.le_add_right pos 8, hfits.1⟩
  case isFalse => cases hstop

/-- Where the whole bytes show enough, the matcher of the class hits what the tree hits. -/
theorem byteClass_eq (h : t.ReadsByte cls) (hlimit : limit ≤ data.bitSize) (hpos : Shown limit pos)
    {mode : MatchMode} (hmode : mode ≠ .search) :
    byteClass cls (data.take (Offset.toByte limit)) pos mode = t.plainHit data limit pos := by
  rw [byteClass_of_ne_search cls _ pos hmode, h.plainHit hlimit]
  refine if_congr ?_ rfl rfl
  rw [Buffer.byteAt?_take hlimit hpos]
  split
  case isTrue hfits => exact (and_iff_right hfits).symm
  case isFalse hpast => exact iff_of_false Bool.false_ne_true fun h => hpast h.1

end ReadsByte

/-- A hit of a tree that goes forward lies where it is looked for, before the limit. -/
theorem plainHit_within {t : Tree ν} (hforward : Forward limit (t.plainAt data limit))
    (hinf : limit ≤ inf) (hpos : pos ≤ limit) (hhit : t.plainHit data limit pos = some hit) :
    hit.offset = pos ∧ hit.stop = hit.offset + hit.length ∧ hit.stop ≤ limit := by
  obtain ⟨stop, hstop, rfl⟩ := Option.map_eq_some_iff.1 hhit
  obtain ⟨hle, hle'⟩ := hforward pos stop hpos hstop
  rw [Hit.stop_between hle (hle'.trans hinf)]
  exact ⟨rfl, (Nat.add_sub_cancel' hle).symm, hle'⟩

/-- A search of the whole bytes before the limit comes to the same offsets as a search up to the
limit. -/
theorem search_take {m : Matcher} (hscans : m.Scans) (hlimit : limit ≤ data.bitSize)
    (hpos : pos ≤ limit) {step : Nat → Option Hit}
    (hstep : ∀ k, pos + 8 * k ≤ limit →
      m (data.take (Offset.toByte limit)) (pos + 8 * k) .anchored = step (pos + 8 * k)) :
    m (data.take (Offset.toByte limit)) pos .search =
      (List.range' pos ((limit - pos) / 8 + 1) 8).findSome? step := by
  have hsize : Buffer.bitSize (data.take (Offset.toByte limit)) = 8 * (limit / 8) :=
    Buffer.bitSize_take hlimit
  rw [hscans _ pos ((limit - pos) / 8 + 1) (by omega)]
  refine findSome?_congr fun offset hoffset => ?_
  obtain ⟨k, hk, rfl⟩ := List.mem_range'.1 hoffset
  exact hstep k (by omega)

/-- A tree with a matcher matches as it does without, if the matcher hits the same at the offsets
that a search of the region tries. -/
theorem matchIn_eq_of_matcher {t : Tree Note} {m : Matcher} (hmatcher : t.note.matcher = some m)
    (hscans : m.Scans) {region : BitRange} (hinf : min region.high data.bitSize ≤ inf)
    (hforward : Forward (min region.high data.bitSize)
      (t.plainAt data (min region.high data.bitSize)))
    (hhit : ∀ k, region.low + 8 * k ≤ min region.high data.bitSize → ∀ mode, mode ≠ .search →
      m (data.take (Offset.toByte (min region.high data.bitSize))) (region.low + 8 * k) mode =
      t.plainHit data (min region.high data.bitSize) (region.low + 8 * k))
    (mode : MatchMode) :
    t.matchIn data region mode = t.plainIn data region mode := by
  unfold matchIn plainIn
  split
  case isTrue => rfl
  case isFalse hregion =>
    rw [not_or, not_not, Nat.not_lt] at hregion
    obtain ⟨hdefined, hstart⟩ := hregion
    have hpos : region.low ≤ min region.high data.bitSize := Nat.le_min.2 ⟨hdefined, hstart⟩
    have hlimit : min region.high data.bitSize ≤ data.bitSize := Nat.min_le_right ..
    rw [BitRange.clip_eq hdefined hstart, hmatcher]
    generalize min region.high data.bitSize = limit at *
    have hlow := hhit 0 hpos
    rw [Nat.mul_zero, Nat.add_zero] at hlow
    cases mode with
    | anchored =>
      dsimp only
      rw [hlow .anchored MatchMode.noConfusion]
      refine filter_eq_self fun hit hhit => decide_eq_true ?_
      obtain ⟨hoffset, -, hstop⟩ := plainHit_within hforward hinf hpos hhit
      exact ⟨hoffset.ge, hstop, fun _ => hoffset, fun hmode => by cases hmode⟩
    | full =>
      dsimp only
      rw [hlow .full MatchMode.noConfusion]
      refine filter_congr fun hit hhit => ?_
      obtain ⟨hoffset, hsum, hstop⟩ := plainHit_within hforward hinf hpos hhit
      rw [Bool.eq_iff_iff, decide_eq_true_iff, beq_iff_eq, ← hsum]
      exact ⟨fun h => h.2.2.2 rfl, fun hend => ⟨hoffset.ge, hstop, fun _ => hoffset, fun _ => hend⟩⟩
    | search =>
      dsimp only
      rw [search_take hscans hlimit hpos fun k hk => hhit k hk .anchored MatchMode.noConfusion]
      refine filter_eq_self fun hit hhit => decide_eq_true ?_
      obtain ⟨offset, hoffset, hhit⟩ := List.exists_of_findSome?_eq_some hhit
      obtain ⟨k, hk, rfl⟩ := List.mem_range'.1 hoffset
      obtain ⟨hoffset, -, hstop⟩ := plainHit_within hforward hinf (by omega) hhit
      exact ⟨hoffset ▸ Nat.le_add_right .., hstop, fun hmode => absurd rfl hmode,
        fun hmode => by cases hmode⟩

/-- In a region that begins where the whole bytes show enough, a tree that reads one byte of a class
matches with the matcher of the class as it does without. -/
theorem ReadsByte.matchIn_eq {t : Tree Note} (h : t.ReadsByte cls)
    (hmatcher : t.note.matcher = some (byteClass cls)) {region : BitRange}
    (hinf : min region.high data.bitSize ≤ inf)
    (hlow : Shown (min region.high data.bitSize) region.low) (mode : MatchMode) :
    t.matchIn data region mode = t.plainIn data region mode := by
  have hlimit : min region.high data.bitSize ≤ data.bitSize := Nat.min_le_right ..
  refine matchIn_eq_of_matcher hmatcher (scans_byteClass cls) hinf (h.forward hlimit)
    (fun k _ mode hmode => ?_) mode
  exact h.byteClass_eq hlimit (hlow.add (Or.inr (Nat.mul_mod_right 8 k))) hmode

/-- At an offset where the whole bytes show enough, a range with its matcher matches as the range
does. -/
theorem matchAt_detected {m : Matcher} (hm : ofRange? lo hi = some m)
    (hnote : note.matcher = some m) (hlimit : limit ≤ data.bitSize) (hpos : Shown limit pos) :
    (node note (.range lo hi)).matchAt data limit pos =
      (node note (.range lo hi)).plainHit data limit pos := by
  have hreads := readsByte_range note lo hi
  rw [matchAt, hnote, ofRange?_eq_some hm]
  dsimp only
  rw [hreads.byteClass_eq hlimit hpos MatchMode.noConfusion]
  refine filter_eq_self fun hit hhit => ?_
  obtain ⟨rfl, hfits⟩ := hreads.eq_of_plainHit hlimit hhit
  simp [Hit.stop, satAdd, hfits]

/-- In a region that begins where the whole bytes show enough, a range with its matcher matches as
the range does. -/
theorem matchIn_detected {m : Matcher} (hm : ofRange? lo hi = some m)
    (hnote : note.matcher = some m) (hinf : data.bitSize < inf) {region : BitRange}
    (hlow : Shown (min region.high data.bitSize) region.low) (mode : MatchMode) :
    (node note (.range lo hi)).matchIn data region mode =
      (node note (.range lo hi)).plainIn data region mode := by
  rw [ofRange?_eq_some hm] at hnote
  exact (readsByte_range note lo hi).matchIn_eq hnote
    ((Nat.min_le_right ..).trans hinf.le) hlow mode

end Tree

end Sigil
