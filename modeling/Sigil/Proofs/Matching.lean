import Sigil.Proofs.Plain
import Sigil.Proofs.Storage
import Sigil.Tree.Match

namespace Sigil

theorem Buffer.bitSize_lt_inf {data : Buffer} (h : data.size < 2 ^ 58) : data.bitSize < inf := by
  unfold bitSize inf
  omega

namespace Hit

theorem stop_between {start stop : Nat} (h : start ≤ stop) (hstop : stop ≤ inf) :
    (between start stop).stop = stop := by
  unfold between Hit.stop satAdd
  dsimp only
  omega

theorem cover_between {start mid stop : Nat} (h : start ≤ mid) (h' : mid ≤ stop)
    (hstop : stop ≤ inf) : (between start mid).cover (between mid stop) = between start stop := by
  unfold cover
  rw [stop_between h (h'.trans hstop), stop_between h' hstop]
  simp only [between, Nat.min_eq_left h, Nat.max_eq_right h']

theorem isEmpty_between {start stop : Nat} (h : start ≤ stop) :
    (between start stop).IsEmpty ↔ stop = start := by
  unfold between IsEmpty
  dsimp only
  omega

theorem emptyAt_eq_between (pos : Nat) : emptyAt pos = between pos pos := by
  simp [emptyAt, between]

end Hit

namespace Tree

/-- The notes of a tree say what follows from the structure. -/
def Faithful (t : Tree Note) : Prop := t.Each fun s => s.note.summary = s.deduced

theorem Faithful.sample {t : Tree Note} (h : t.Faithful) : t.sample = t.deduced.sample :=
  congrArg Summary.sample h.root

theorem Faithful.bounds {t : Tree Note} (h : t.Faithful) (ht : t.Valid) :
    t.sample.Bounds t.language := by
  rw [h.sample]
  exact bounds_deduced ht

/-- No node of the tree has a matcher of its own. -/
def Bare (t : Tree Note) : Prop := t.Each fun s => s.note.matcher = none

end Tree

def Realizes (limit : Nat) (match? : Nat → Option Hit) (step : Nat → Option Nat) : Prop :=
  ∀ pos ≤ limit, match? pos = (step pos).map (Hit.between pos)

theorem repeatGreedy_eq {limit : Nat} (hinf : limit ≤ inf) {match? : Nat → Option Hit}
    {step : Nat → Option Nat} (hmatch : Realizes limit match? step) (hstep : Forward limit step)
    (r : Repeat) (fuel : Nat) {start pos : Nat} (count : Nat) (hstart : start ≤ pos)
    (hpos : pos ≤ limit) :
    repeatGreedy match? r fuel (Hit.between start pos) count =
      (Hit.between start (greedy step r fuel pos count).1, (greedy step r fuel pos count).2) := by
  induction fuel generalizing pos count with
  | zero => rfl
  | succ fuel ih =>
    unfold repeatGreedy greedy
    split
    case isTrue => rfl
    case isFalse =>
      rw [Hit.stop_between hstart (hpos.trans hinf), hmatch pos hpos]
      cases hstop : step pos with
      | none => rfl
      | some stop =>
        obtain ⟨hle, hlimit⟩ := hstep pos stop hpos hstop
        dsimp only [Option.map_some]
        rw [Hit.cover_between hstart hle (hlimit.trans hinf)]
        by_cases hstay : stop = pos
        · rw [if_pos ((Hit.isEmpty_between hle).2 hstay), if_pos hstay, hstay]
        · rw [if_neg (mt (Hit.isEmpty_between hle).1 hstay), if_neg hstay]
          exact ih (count + 1) (hstart.trans hle) hlimit

theorem matchRepeat_eq {limit : Nat} (hinf : limit ≤ inf) {match? : Nat → Option Hit}
    {step : Nat → Option Nat} (hmatch : Realizes limit match? step) (hstep : Forward limit step)
    (r : Repeat) {pos : Nat} (hpos : pos ≤ limit) :
    matchRepeat match? r pos limit = (plainRepeat step r limit pos).map (Hit.between pos) := by
  unfold matchRepeat plainRepeat
  rw [Hit.emptyAt_eq_between, repeatGreedy_eq hinf hmatch hstep r _ 0 le_rfl hpos]
  dsimp only
  split <;> rfl

namespace Tree

variable {data : Buffer} {limit : Nat}

theorem matchFirst_eq {ts : List (Tree Note)}
    (h : ∀ t ∈ ts, Realizes limit (matchAt data limit t) (t.compared.plainAt data limit))
    {pos : Nat} (hpos : pos ≤ limit) :
    matchFirst data limit ts pos =
      (ts.findSome? fun (t : Tree Note) => t.compared.plainAt data limit pos).map
        (Hit.between pos) := by
  induction ts with
  | nil => rfl
  | cons t ts ih =>
    rw [matchFirst, h t List.mem_cons_self pos hpos, List.findSome?_cons]
    cases t.compared.plainAt data limit pos with
    | none => exact ih fun s hs => h s (List.mem_cons_of_mem t hs)
    | some stop => rfl

theorem matchInOrder_eq (hinf : limit ≤ inf) {ts : List (Tree Note)}
    (h : ∀ t ∈ ts, Realizes limit (matchAt data limit t) (t.compared.plainAt data limit))
    (hforward : ∀ t ∈ ts, Forward limit (t.compared.plainAt data limit)) {start pos : Nat}
    (hstart : start ≤ pos) (hpos : pos ≤ limit) :
    matchInOrder data limit ts (Hit.between start pos) =
      (ts.foldlM (fun pos (t : Tree Note) => t.compared.plainAt data limit pos) pos).map
        (Hit.between start) := by
  induction ts generalizing pos with
  | nil => rfl
  | cons t ts ih =>
    rw [matchInOrder, Hit.stop_between hstart (hpos.trans hinf), h t List.mem_cons_self pos hpos,
      List.foldlM_cons]
    cases hstop : t.compared.plainAt data limit pos with
    | none => rfl
    | some stop =>
      obtain ⟨hle, hlimit⟩ := hforward t List.mem_cons_self pos stop hpos hstop
      dsimp only [Option.map_some]
      rw [Hit.cover_between hstart hle (hlimit.trans hinf)]
      exact ih (fun s hs => h s (List.mem_cons_of_mem t hs))
        (fun s hs => hforward s (List.mem_cons_of_mem t hs)) (hstart.trans hle) hlimit

/-- Plain matching finds nothing where the deduced lengths leave no room. -/
theorem plainAt_eq_none {ν : Type} {t : Tree ν} (ht : t.Valid) (hlimit : limit ≤ data.bitSize)
    {pos : Nat} (hpos : pos ≤ limit)
    (h : ¬ (t.deduced.sample.Defined ∧ t.deduced.sample.low ≤ limit - pos)) :
    t.plainAt data limit pos = none := by
  rw [Option.eq_none_iff_forall_ne_some]
  intro stop hstop
  obtain ⟨hle, w, hw, hsum, -⟩ := reads_plainAt ht hlimit pos stop hpos hstop
  have hbounds := bounds_deduced ht
  have hlow := hbounds.low_le hw
  exact h ⟨hbounds.defined hw, by omega⟩

theorem matchKind_eq {k : Kind (Tree Note)} (hk : k.Valid) (hinf : limit ≤ inf)
    (hlengths : limit < inf ∨ k.Representable)
    (hsubs : ∀ s ∈ k.subs, Realizes limit (matchAt data limit s) (s.compared.plainAt data limit))
    (hforward : ∀ s ∈ k.subs, Forward limit (s.compared.plainAt data limit)) {lead : Fin 8}
    {pos : Nat} (hpos : pos ≤ limit)
    (hlow : (k.map fun t => t.deduced.sample).sample.low ≤ limit - pos) :
    matchKind data limit lead k pos =
      (((k.compared lead).map fun s => s.compared.plainAt data limit).stopAt data limit pos).map
        (Hit.between pos) := by
  cases k with
  | lit l =>
    simp only [matchKind, Kind.compared, Kind.map, Kind.stopAt, Literal.occursAt_compared hk.2,
      Literal.length_compared hk.2]
    split <;> simp [Hit.between]
  | any bits =>
    have hfits : pos + bits ≤ limit := by
      simp only [Kind.map, Kind.sample, BitRange.fixed] at hlow
      simp only [Kind.Representable] at hlengths
      omega
    simp only [matchKind, Kind.compared, Kind.map, Kind.stopAt, if_pos hfits]
    simp [Hit.between]
  | range lo hi =>
    have hfits : pos + 8 ≤ limit := by
      simp only [Kind.map, Kind.sample, BitRange.fixed] at hlow
      omega
    simp only [matchKind, Kind.compared, Kind.map, Kind.stopAt, hfits, true_and]
    split <;> simp [Hit.between]
  | anchor a =>
    simp only [matchKind, Kind.compared, Kind.map, Kind.stopAt]
    split <;> simp [Hit.between, Hit.emptyAt]
  | alt subs =>
    change ∀ s ∈ subs, _ at hsubs
    rw [matchKind, matchFirst_eq hsubs hpos]
    simp only [Kind.compared, Kind.map, Kind.stopAt, List.findSome?_map]
    rfl
  | seq subs =>
    change ∀ s ∈ subs, _ at hsubs hforward
    rw [matchKind, Hit.emptyAt_eq_between, matchInOrder_eq hinf hsubs hforward le_rfl hpos]
    simp only [Kind.compared, Kind.map, Kind.stopAt, List.foldlM_map]
  | rep s r =>
    have hs : s ∈ (Kind.rep s r).subs := List.mem_singleton_self s
    rw [matchKind, matchRepeat_eq hinf (hsubs s hs) (hforward s hs) r hpos]
    rfl
  | ctx d s => exact hsubs s (List.mem_singleton_self s) pos hpos

/-- Matching compares literals by their stored bytes. The check of the lengths never loses a
match. -/
theorem realizes_compared {t : Tree Note} (hvalid : t.Valid) (hfaithful : t.Faithful)
    (hbare : t.Bare) (hlimit : limit ≤ data.bitSize) (hinf : limit ≤ inf)
    (hlengths : limit < inf ∨ t.Each fun s => s.kind.Representable) :
    Realizes limit (matchAt data limit t) (t.compared.plainAt data limit) := by
  induction t using induct_subs with
  | node note k ih =>
    intro pos hpos
    have hmatcher : note.matcher = none := hbare.root
    have hsample : note.sample = (node note k).compared.deduced.sample := by
      rw [sample_compared hvalid]
      exact hfaithful.sample
    simp only [matchAt, hmatcher]
    split
    case isTrue hroom =>
      rw [compared_node, plainAt_node, Kind.map_map]
      refine matchKind_eq hvalid.root hinf (hlengths.imp_right Each.root)
        (fun s hs => ih s hs (hvalid.sub hs) (hfaithful.sub hs) (hbare.sub hs)
          (hlengths.imp_right (·.sub hs)))
        (fun s hs => (reads_plainAt (valid_compared (hvalid.sub hs)) hlimit).forward) hpos ?_
      change (k.map fun t => t.deduced.sample).sample.low ≤ limit - pos
      rw [← deduced_sample note k, ← sample_compared hvalid, ← hsample]
      exact hroom.2
    case isFalse hroom =>
      rw [hsample] at hroom
      rw [plainAt_eq_none (valid_compared hvalid) hlimit hpos hroom]
      rfl

theorem plainAt_compared {t : Tree Note} (hvalid : t.Valid) (hflush : t.Flush) :
    t.compared.plainAt data limit = t.plainAt data limit := by
  rw [compared_of_flush hvalid hflush]
  exact fold_shape ..

theorem realizes_matchAt {t : Tree Note} (hvalid : t.Valid) (hfaithful : t.Faithful)
    (hbare : t.Bare) (hflush : t.Flush) (hlimit : limit ≤ data.bitSize) (hinf : limit ≤ inf)
    (hlengths : limit < inf ∨ t.Each fun s => s.kind.Representable) :
    Realizes limit (matchAt data limit t) (t.plainAt data limit) := by
  rw [← plainAt_compared hvalid hflush]
  exact realizes_compared hvalid hfaithful hbare hlimit hinf hlengths

end Tree

/-! ## Searching -/

namespace SkipTable

theorem scan_spec (t : SkipTable) (data : Buffer) (count index : Nat) :
    index ≤ t.scan data count index ∧ t.scan data count index ≤ index + count ∧
      ∀ i, index ≤ i → i < t.scan data count index → t.skips (data.getD i 0) = true := by
  induction count generalizing index with
  | zero => exact ⟨le_rfl, le_rfl, fun i hle hlt => absurd hlt (Nat.not_lt.2 hle)⟩
  | succ count ih =>
    rw [scan]
    split
    case isTrue hskip =>
      obtain ⟨hlow, hhigh, hall⟩ := ih (index + 1)
      refine ⟨by omega, by omega, ?_⟩
      intro i hle hlt
      rcases Nat.eq_or_lt_of_le hle with rfl | hlt'
      · exact hskip
      · exact hall i hlt' hlt
    case isFalse => exact ⟨le_rfl, by omega, fun i hle hlt => absurd hlt (Nat.not_lt.2 hle)⟩

theorem skips_scan (t : SkipTable) (data : Buffer) (count index : Nat)
    (h : t.scan data count index < index + count) :
    t.skips (data.getD (t.scan data count index) 0) = false := by
  induction count generalizing index with
  | zero => exact absurd h (Nat.not_lt.2 le_rfl)
  | succ count ih =>
    rw [scan] at h ⊢
    split at h
    case isTrue hskip =>
      rw [if_pos hskip]
      exact ih (index + 1) (by omega)
    case isFalse hskip =>
      rw [if_neg hskip]
      exact Bool.eq_false_iff.2 hskip

theorem skips_of_isTrivial {t : SkipTable} (h : t.IsTrivial) (b : UInt8) : t.skips b = false := by
  unfold IsTrivial ByteSet.IsEmpty at h
  rw [skips, h, ByteSet.contains_empty]

/-- All bytes before the candidate are skipped, and the candidate is not. -/
theorem nextCandidate_spec (t : SkipTable) (data : Buffer) {start stop : Nat} (h : start ≤ stop) :
    start ≤ t.nextCandidate data start stop ∧ t.nextCandidate data start stop ≤ stop ∧
      (∀ i, start ≤ i → i < t.nextCandidate data start stop → t.skips (data.getD i 0) = true) ∧
      (t.nextCandidate data start stop < stop →
        t.skips (data.getD (t.nextCandidate data start stop) 0) = false) := by
  unfold nextCandidate
  split
  case isTrue hnone =>
    rw [Nat.min_eq_left h]
    refine ⟨le_rfl, h, fun i hle hlt => absurd hlt (Nat.not_lt.2 hle), fun hlt => ?_⟩
    exact skips_of_isTrivial (hnone.resolve_right (Nat.not_le.2 hlt)) _
  case isFalse =>
    obtain ⟨hlow, hhigh, hall⟩ := t.scan_spec data (stop - start) start
    exact ⟨hlow, by omega, hall, fun hlt => t.skips_scan data (stop - start) start (by omega)⟩

def Passes (t : SkipTable) (data : Buffer) (limit pos : Nat) : Prop :=
  Offset.Aligned pos ∧ pos / 8 < limit / 8 ∧ t.skips (data.getD (pos / 8) 0) = true

instance (t : SkipTable) (data : Buffer) (limit pos : Nat) : Decidable (t.Passes data limit pos) :=
  inferInstanceAs (Decidable (_ ∧ _ ∧ _))

def sift (t : SkipTable) (data : Buffer) (limit : Nat) (at? : Nat → Option Hit) (pos : Nat) :
    Option Hit :=
  if t.Passes data limit pos then none else at? pos

end SkipTable

theorem Bits.leads_of_holdsBits {data : Buffer} {w : Bits} {i : Nat} (hi : i < data.size)
    (h : data.holdsBits w (8 * i) = true) : Bits.Leads w (data.getD i 0) := by
  have hfits : 8 * i + 8 ≤ data.bitSize := by
    unfold Buffer.bitSize
    omega
  obtain ⟨b, hb⟩ := Buffer.exists_byteAt? hfits
  have hbyte : Bits.ofByte (data.getD i 0) = Bits.ofByte b := by
    have hread := Buffer.getD_eq hi
    generalize data.getD i 0 = c at hread ⊢
    rw [← Buffer.take_drop_eq_ofByte hb]
    apply List.ext_getElem?
    intro j
    rw [Bits.getElem?_ofByte, List.getElem?_take]
    split
    case isFalse => rfl
    case isTrue hj =>
      have hdiv : (8 * i + j) / 8 = i := by omega
      have hmod : (8 * i + j) % 8 = j := by omega
      rw [List.getElem?_drop, Buffer.getElem?_bits, hdiv, hmod, hread, Option.map_some]
  rw [Bits.Leads, hbyte, ← Buffer.take_drop_eq_ofByte hb]
  exact ((Buffer.holdsBits_iff ..).1 h).take 8

/-- A region that begins in the buffer is cut where the buffer ends. -/
theorem BitRange.clip_eq {region : BitRange} {size : Nat} (hdefined : region.Defined)
    (hlow : region.low ≤ size) : region.clip size = ⟨region.low, min region.high size⟩ := by
  unfold clip
  unfold Defined at hdefined
  rw [Nat.min_eq_left (by omega)]

namespace Tree

variable {data : Buffer} {limit : Nat}

/-- The offset that a search tries next lies in its grid, and is the first that it does not pass
over. -/
theorem nextOffset_spec (t : Tree Note) (data : Buffer) {limit pos : Nat} (hpos : pos ≤ limit) :
    ∃ passed, t.nextOffset data (Offset.toByte limit) pos = pos + 8 * passed ∧
      pos + 8 * passed ≤ limit ∧
      (∀ k < passed, t.skips.Passes data limit (pos + 8 * k)) ∧
      ¬ t.skips.Passes data limit (pos + 8 * passed) := by
  unfold nextOffset
  split
  case isFalse hnone =>
    refine ⟨0, rfl, hpos, fun k hk => absurd hk (Nat.not_lt_zero k), ?_⟩
    rintro ⟨haligned, -, hskips⟩
    have htrivial := not_not.1 (not_and.1 hnone haligned)
    rw [SkipTable.skips_of_isTrivial htrivial] at hskips
    exact absurd hskips Bool.false_ne_true
  case isTrue haligned =>
    have hstart : pos % 8 = 0 := haligned.1
    unfold Offset.toByte
    obtain ⟨hlow, hhigh, hall, hstop⟩ :=
      t.skips.nextCandidate_spec data (Nat.div_le_div_right hpos : pos / 8 ≤ limit / 8)
    have hoffset : ∀ k, (pos + 8 * k) % 8 = 0 ∧ (pos + 8 * k) / 8 = pos / 8 + k := by omega
    refine ⟨t.skips.nextCandidate data (pos / 8) (limit / 8) - pos / 8, by omega, by omega, ?_, ?_⟩
    · intro k hk
      rw [SkipTable.Passes, (hoffset k).2]
      exact ⟨(hoffset k).1, by omega, hall _ (by omega) (by omega)⟩
    · rintro ⟨-, hlt, hskips⟩
      rw [(hoffset _).2, Nat.add_sub_cancel' hlow] at hlt hskips
      rw [hstop hlt] at hskips
      exact absurd hskips Bool.false_ne_true

/-- A search answers with the first hit at the offsets of its grid that it does not pass over. -/
theorem searchFrom_eq (t : Tree Note) (data : Buffer) {limit : Nat} (fuel : Nat) {pos : Nat}
    (hpos : pos ≤ limit) (hfuel : (limit - pos) / 8 < fuel) :
    t.searchFrom data limit fuel pos =
      (List.range' pos ((limit - pos) / 8 + 1) 8).findSome?
        (t.skips.sift data limit (t.matchAt data limit)) := by
  induction fuel generalizing pos with
  | zero => omega
  | succ fuel ih =>
    obtain ⟨passed, htried, hle, hpasses, hstays⟩ := t.nextOffset_spec data hpos
    have hpassed :
        (List.range' pos passed 8).findSome?
          (t.skips.sift data limit (t.matchAt data limit)) = none := by
      rw [List.findSome?_eq_none_iff]
      intro offset hoffset
      obtain ⟨k, hk, rfl⟩ := List.mem_range'.1 hoffset
      exact if_pos (hpasses k hk)
    -- the grid splits into the offsets passed over, the one tried and the rest
    have hcount : (limit - pos) / 8 + 1 = passed + ((limit - (pos + 8 * passed)) / 8 + 1) := by
      omega
    have hat : t.skips.sift data limit (t.matchAt data limit) (pos + 8 * passed) =
        t.matchAt data limit (pos + 8 * passed) := if_neg hstays
    rw [hcount, ← List.range'_append, List.findSome?_append, hpassed, Option.none_or,
      List.range'_succ, List.findSome?_cons, searchFrom, htried, hat]
    cases t.matchAt data limit (pos + 8 * passed) with
    | some hit => rfl
    | none =>
      dsimp only
      split
      case isTrue hend =>
        rw [show (limit - (pos + 8 * passed)) / 8 = 0 by omega]
        rfl
      case isFalse hend =>
        rw [ih (by omega) (by omega)]
        congr 2
        omega

/-- Matches a region of a buffer as plain matching does, but a search passes over offsets by a
table. -/
def siftedIn {ν : Type} (t : Tree ν) (table : SkipTable) (data : Buffer) (region : BitRange)
    (mode : MatchMode) : Option Hit :=
  let limit := min region.high data.bitSize
  if ¬ region.Defined ∨ data.bitSize < region.low then none
  else match mode with
    | .anchored => t.plainHit data limit region.low
    | .full => (t.plainHit data limit region.low).filter fun hit => hit.offset + hit.length == limit
    | .search =>
      (List.range' region.low ((limit - region.low) / 8 + 1) 8).findSome?
        (table.sift data limit (t.plainHit data limit))

/-- A tree that matches at single offsets as the structure of another one does, matches so in a
region. -/
theorem matchIn_eq_sifted {ν : Type} {t : Tree Note} {u : Tree ν} (hvalid : u.Valid)
    (hmatcher : t.note.matcher = none) {region : BitRange}
    (hinf : min region.high data.bitSize ≤ inf)
    (hmatch : Realizes (min region.high data.bitSize)
      (matchAt data (min region.high data.bitSize) t)
      (u.plainAt data (min region.high data.bitSize)))
    (mode : MatchMode) : t.matchIn data region mode = u.siftedIn t.skips data region mode := by
  unfold matchIn siftedIn
  split
  case isTrue => rfl
  case isFalse hregion =>
    rw [not_or, not_not, Nat.not_lt] at hregion
    obtain ⟨hdefined, hlow⟩ := hregion
    have hlimit : min region.high data.bitSize ≤ data.bitSize := Nat.min_le_right ..
    have hpos : region.low ≤ min region.high data.bitSize := Nat.le_min.2 ⟨hdefined, hlow⟩
    have hat := hmatch _ hpos
    rw [BitRange.clip_eq hdefined hlow, hmatcher]
    cases mode with
    | anchored => exact hat
    | search =>
      refine (searchFrom_eq t data _ hpos (by simp only [BitRange.size]; omega)).trans ?_
      apply findSome?_congr
      intro pos hpos
      obtain ⟨k, hk, rfl⟩ := List.mem_range'.1 hpos
      exact congrArg (ite _ none) (hmatch _ (by omega))
    | full =>
      dsimp only
      rw [hat]
      unfold plainHit
      cases hstop : u.plainAt data (min region.high data.bitSize) region.low with
      | none => rfl
      | some stop =>
        obtain ⟨hle, hle'⟩ := (reads_plainAt hvalid hlimit).forward _ stop hpos hstop
        rw [Option.map_some, Option.filter_some, Option.filter_some,
          Hit.stop_between hle (hle'.trans hinf)]
        simp only [Hit.between, Nat.add_sub_cancel' hle]

theorem matchIn_eq_compared {t : Tree Note} (hvalid : t.Valid) (hfaithful : t.Faithful)
    (hbare : t.Bare) (hinf : data.bitSize < inf) (region : BitRange) (mode : MatchMode) :
    t.matchIn data region mode = t.compared.siftedIn t.skips data region mode :=
  have hlimit : min region.high data.bitSize < inf := (Nat.min_le_right ..).trans_lt hinf
  matchIn_eq_sifted (valid_compared hvalid) hbare.root hlimit.le
    (realizes_compared hvalid hfaithful hbare (Nat.min_le_right ..) hlimit.le (Or.inl hlimit)) mode

/-- An instance begins with no byte that the table skips. -/
theorem plainAt_eq_none_of_passes {t : Tree Note} (hvalid : t.Valid) (hfaithful : t.Faithful)
    (hlimit : limit ≤ data.bitSize) {pos : Nat} (h : t.skips.Passes data limit pos) :
    t.plainAt data limit pos = none := by
  obtain ⟨haligned, hlt, hskip⟩ := h
  have hpos : pos = 8 * (pos / 8) := by
    unfold Offset.Aligned at haligned
    omega
  rw [Option.eq_none_iff_forall_ne_some]
  intro stop hstop
  obtain ⟨-, w, hw, -, hold⟩ := reads_plainAt hvalid hlimit pos stop (by omega) hstop
  have hsize : pos / 8 < data.size := by
    unfold Buffer.bitSize at hlimit
    omega
  have hnot := not_skips_deduced hvalid hw (Bits.leads_of_holdsBits hsize (hpos ▸ hold))
  rw [skips, hfaithful.root, hnot] at hskip
  exact absurd hskip Bool.false_ne_true

/-- The table of a tree that tells the truth passes over no match of its structure. -/
theorem siftedIn_eq_plainIn {t : Tree Note} (hvalid : t.Valid) (hfaithful : t.Faithful)
    (data : Buffer) (region : BitRange) (mode : MatchMode) :
    t.siftedIn t.skips data region mode = t.plainIn data region mode := by
  have hsift : t.skips.sift data (min region.high data.bitSize)
      (t.plainHit data (min region.high data.bitSize)) =
        t.plainHit data (min region.high data.bitSize) := by
    funext pos
    unfold SkipTable.sift
    split
    case isFalse => rfl
    case isTrue hpasses =>
      rw [plainHit, plainAt_eq_none_of_passes hvalid hfaithful (Nat.min_le_right ..) hpasses,
        Option.map_none]
  cases mode <;> simp only [siftedIn, plainIn, hsift]

theorem matchIn_eq_of_realizes {t : Tree Note} (hvalid : t.Valid) (hfaithful : t.Faithful)
    (hmatcher : t.note.matcher = none) {region : BitRange}
    (hinf : min region.high data.bitSize ≤ inf)
    (hmatch : Realizes (min region.high data.bitSize)
      (matchAt data (min region.high data.bitSize) t)
      (t.plainAt data (min region.high data.bitSize)))
    (mode : MatchMode) : t.matchIn data region mode = t.plainIn data region mode := by
  rw [matchIn_eq_sifted hvalid hmatcher hinf hmatch, siftedIn_eq_plainIn hvalid hfaithful]

/-- On a tree that tells the truth and has no matchers, summaries change no hit. -/
theorem matchIn_eq_of_limit {t : Tree Note} (hvalid : t.Valid) (hfaithful : t.Faithful)
    (hbare : t.Bare) (hflush : t.Flush) {region : BitRange}
    (hinf : min region.high data.bitSize ≤ inf)
    (hlengths : min region.high data.bitSize < inf ∨ t.Each fun s => s.kind.Representable)
    (mode : MatchMode) : t.matchIn data region mode = t.plainIn data region mode :=
  matchIn_eq_of_realizes hvalid hfaithful hbare.root hinf
    (realizes_matchAt hvalid hfaithful hbare hflush (Nat.min_le_right ..) hinf hlengths) mode

theorem matchIn_eq {t : Tree Note} (hvalid : t.Valid) (hfaithful : t.Faithful) (hbare : t.Bare)
    (hflush : t.Flush) (hinf : data.bitSize < inf) (region : BitRange) (mode : MatchMode) :
    t.matchIn data region mode = t.plainIn data region mode :=
  have hlimit : min region.high data.bitSize < inf := (Nat.min_le_right ..).trans_lt hinf
  matchIn_eq_of_limit hvalid hfaithful hbare hflush hlimit.le (Or.inl hlimit) mode

end Tree

end Sigil
