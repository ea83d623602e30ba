import Sigil.Proofs.Limit
import Sigil.Proofs.Matching

namespace Sigil

def Short (L : Language Bool) : Prop := ∀ w ∈ L, w.length < inf

variable {α : Type} {language : α → Language Bool} {w : Bits}

theorem exists_mem_prod {subs : List α} (hne : ∃ u, u ∈ (subs.map language).prod) {s : α}
    (hs : s ∈ subs) (hw : w ∈ language s) :
    ∃ v ∈ (subs.map language).prod, w.length ≤ v.length := by
  induction subs with
  | nil => exact absurd hs List.not_mem_nil
  | cons t subs ih =>
    rw [List.map_cons, List.prod_cons] at hne ⊢
    obtain ⟨u, hu⟩ := hne
    obtain ⟨x, hx, y, hy, rfl⟩ := Language.mem_mul.1 hu
    rcases List.mem_cons.1 hs with rfl | hs
    · refine ⟨w ++ y, Language.append_mem_mul hw hy, ?_⟩
      rw [List.length_append]
      exact Nat.le_add_right ..
    · obtain ⟨v, hv, hle⟩ := ih ⟨y, hy⟩ hs
      refine ⟨x ++ v, Language.append_mem_mul hx hv, ?_⟩
      rw [List.length_append]
      exact hle.trans (Nat.le_add_left ..)

/-- In a layer that has instances, each instance of a sub-pattern is part of one, unless it is
repeated zero times. -/
theorem Kind.exists_longer {k : Kind α} (hk : k.Valid) (hne : ∃ u, u ∈ (k.map language).language)
    (hrep : ∀ s r, k = .rep s r → r.max ≠ some 0) {s : α} (hs : s ∈ k.subs) (hw : w ∈ language s) :
    ∃ v ∈ (k.map language).language, w.length ≤ v.length := by
  cases k with
  | lit l => exact absurd hs List.not_mem_nil
  | any bits => exact absurd hs List.not_mem_nil
  | range lo hi => exact absurd hs List.not_mem_nil
  | anchor a => exact absurd hs List.not_mem_nil
  | alt subs => exact ⟨w, mem_sum_map.2 ⟨s, hs, hw⟩, le_rfl⟩
  | seq subs => exact exists_mem_prod hne hs hw
  | rep t r =>
    obtain rfl := List.mem_singleton.1 hs
    have hallows : r.Allows (max r.min 1) := by
      refine ⟨Nat.le_max_left .., fun m hm => Nat.max_le.2 ⟨hk m hm, Nat.pos_of_ne_zero ?_⟩⟩
      rintro rfl
      exact hrep s r rfl hm
    have hlength : ∀ n, ((List.replicate n w).flatten).length = n * w.length := fun n => by simp
    refine ⟨_, ⟨_, hallows, replicate_mem_pow hw _⟩, ?_⟩
    rw [hlength]
    exact Nat.le_mul_of_pos_left _ (Nat.le_max_right ..)
  | ctx d t =>
    obtain rfl := List.mem_singleton.1 hs
    exact ⟨w, hw, le_rfl⟩

/-- The lengths that a layer of short instances states are 64-bit words. -/
theorem Kind.representable_of_short {k : Kind α} (hk : k.Valid)
    (hshort : Short (k.map language).language) : k.Representable := by
  cases k with
  | lit l => exact (hshort l.bits (Literal.spells_bits hk.2)).le
  | any bits =>
    have hlt := hshort (List.replicate bits false) List.length_replicate
    rw [List.length_replicate] at hlt
    exact hlt.le
  | _ => trivial

theorem BitRange.Bounds.short {r : BitRange} {L : Language Bool} (h : r.Bounds L)
    (hhigh : r.high < inf) : Short L := by
  intro w hw
  have hextent := h.extent_le_high hw
  unfold Bits.extent at hextent
  omega

/-- What is repeated zero times is never tried. -/
theorem matchRepeat_of_max_eq_zero {r : Repeat} (hmax : r.max = some 0)
    (match? match?' : Nat → Option Hit) (pos limit : Nat) :
    matchRepeat match? r pos limit = matchRepeat match?' r pos limit := by
  have hdone : r.max.any (· ≤ 0) = true := by rw [hmax]; rfl
  unfold matchRepeat repeatGreedy
  rw [if_pos hdone, if_pos hdone]

namespace Tree

variable {data : Buffer} {limit : Nat}

theorem realizes_compared_of_short {t : Tree Note} (hvalid : t.Valid) (hfaithful : t.Faithful)
    (hbare : t.Bare) (hlimit : limit ≤ data.bitSize) (hinf : limit ≤ inf)
    (hshort : Short t.language) :
    Realizes limit (matchAt data limit t) (t.compared.plainAt data limit) := by
  induction t using induct_subs with
  | node note k ih =>
    intro pos hpos
    have hmatcher : note.matcher = none := hbare.root
    have hsummary : note.summary = (node note k).deduced := hfaithful.root
    have hk : k.Valid := hvalid.root
    have hforward : ∀ s ∈ k.subs, Forward limit (s.compared.plainAt data limit) := fun s hs =>
      (reads_plainAt (valid_compared (hvalid.sub hs)) hlimit).forward
    simp only [matchAt, hmatcher]
    split
    case isFalse hroom =>
      rw [Note.sample, hsummary, ← sample_compared hvalid] at hroom
      rw [plainAt_eq_none (valid_compared hvalid) hlimit hpos hroom]
      rfl
    case isTrue hroom =>
      rw [compared_node, plainAt_node, Kind.map_map]
      by_cases hrep : ∀ s r, k = .rep s r → r.max ≠ some 0
      · obtain ⟨u, hu, -⟩ := (hfaithful.bounds hvalid).exists_low hroom.1
        rw [language_node] at hu hshort
        refine matchKind_eq hk hinf (Or.inr (Kind.representable_of_short hk hshort)) (fun s hs =>
          ?_) hforward
          hpos ?_
        · refine ih s hs (hvalid.sub hs) (hfaithful.sub hs) (hbare.sub hs) fun w hw => ?_
          obtain ⟨v, hv, hle⟩ := Kind.exists_longer hk ⟨u, hu⟩ hrep hs hw
          exact hle.trans_lt (hshort v hv)
        · rw [← deduced_sample note k, ← hsummary]
          exact hroom.2
      · push Not at hrep
        obtain ⟨s, r, rfl, hmax⟩ := hrep
        rw [matchKind, matchRepeat_of_max_eq_zero hmax _ fun pos =>
          (s.compared.plainAt data limit pos).map (Hit.between pos)]
        exact matchRepeat_eq hinf (fun _ _ => rfl) (hforward s (List.mem_singleton_self s)) r hpos

/-- A tree of short instances matches as its structure does. -/
theorem matchIn_eq_of_short {t : Tree Note} (hvalid : t.Valid) (hfaithful : t.Faithful)
    (hbare : t.Bare) (hflush : t.Flush) (hshort : Short t.language) {region : BitRange}
    (hinf : min region.high data.bitSize ≤ inf) (mode : MatchMode) :
    t.matchIn data region mode = t.plainIn data region mode := by
  refine matchIn_eq_of_realizes hvalid hfaithful hbare.root hinf ?_ mode
  rw [← plainAt_compared hvalid hflush]
  exact realizes_compared_of_short hvalid hfaithful hbare (Nat.min_le_right ..) hinf hshort

/-- At the start of a buffer there is room for short instances, also where a limit at `inf` cuts it
off. -/
theorem plainAt_min_inf {ν : Type} {t : Tree ν} (ht : t.Valid) (hshort : Short t.language)
    (data : Buffer) : t.plainAt data (min inf data.bitSize) 0 = t.plainAt data data.bitSize 0 := by
  rcases Nat.le_total data.bitSize inf with hle | hle
  · rw [Nat.min_eq_right hle]
  · have hroom : Room t.language 0 inf := fun w hw => by
      rw [Nat.zero_add]
      exact (hshort w hw).le
    rw [Nat.min_eq_left hle, plainAt_limit ht hle le_rfl (Nat.zero_le inf) hroom]

end Tree

end Sigil
