import Sigil.Content
import Sigil.Proofs.Excerpt
import Sigil.Proofs.Limit
import Sigil.Proofs.Matching

namespace Sigil

variable {data : Buffer} {region window : BitRange} {mode : MatchMode}

/-! ## Windows -/

theorem contentWindow_eq_some {sample : BitRange} {sizeBits : Nat}
    (h : contentWindow sample region sizeBits mode = some window) :
    sample.Defined ∧ region.Defined ∧ region.low ≤ sizeBits ∧ window.low = region.low ∧
      window.high =
        min (min (if mode.IsAnchored then satAdd region.low sample.high else region.high)
          region.high) sizeBits := by
  unfold contentWindow at h
  split at h
  case isTrue => exact absurd h (by simp)
  case isFalse hnot =>
    rw [not_or, not_or, not_not, not_not, Nat.not_lt] at hnot
    rw [← Option.some.inj h]
    exact ⟨hnot.1, hnot.2.1, hnot.2.2, rfl, rfl⟩

theorem window_low_le_high {sample : BitRange} {sizeBits : Nat}
    (h : contentWindow sample region sizeBits mode = some window) (hinf : sizeBits < inf) :
    window.low ≤ window.high ∧ window.high ≤ sizeBits := by
  obtain ⟨-, hregion, hlow, hwlow, hwhigh⟩ := contentWindow_eq_some h
  unfold BitRange.Defined at hregion
  refine ⟨?_, by rw [hwhigh]; exact Nat.min_le_right ..⟩
  rw [hwlow, hwhigh]
  have hreach : region.low ≤
      if mode.IsAnchored then satAdd region.low sample.high else region.high := by
    split
    · unfold satAdd
      omega
    · exact hregion
  exact Nat.le_min.2 ⟨Nat.le_min.2 ⟨hreach, hregion⟩, hlow⟩

/-- What is loaded begins before the window, and frames it. -/
theorem frames_load (hlow : window.low ≤ window.high) (hhigh : window.high ≤ data.bitSize)
    (hinf : data.bitSize + 8 ≤ inf) (page : Nat) :
    8 * loadStart window page ≤ window.low ∧ loadStart window page ≤ loadStop window data.size ∧
      data.Frames (loadStart window page) (loadStop window data.size)
        (window.low - 8 * loadStart window page)
        (window.high - 8 * loadStart window page) := by
  -- one byte before the window at least, unless the buffer begins there, and one behind it
  have hpage : loadStart window page ≤ window.low / 8 - 1 := Nat.div_mul_le_self ..
  have hstop : loadStop window data.size = min ((window.high + 15) / 8) data.size := by
    unfold loadStop Offset.byteCount
    rw [satAdd_eq (by omega)]
  rw [hstop]
  generalize loadStart window page = start at hpage
  unfold Buffer.bitSize at hhigh
  refine ⟨by omega, by omega, ⟨?_, ?_, ?_, Nat.min_le_right ..⟩⟩ <;> omega

theorem ofBytes_loadStart (hlow : window.low ≤ window.high) (hhigh : window.high ≤ data.bitSize)
    (hinf : data.bitSize + 8 ≤ inf) (page : Nat) :
    Offset.ofBytes (loadStart window page) = 8 * loadStart window page := by
  obtain ⟨hbase, -, -⟩ := frames_load hlow hhigh hinf page
  rw [Offset.ofBytes_eq (by omega), Nat.mul_comm]

/-- Anchors hold in what is loaded where they hold in the buffer. -/
theorem Anchor.holds_window {sample : BitRange}
    (h : contentWindow sample region data.bitSize mode = some window)
    (hinf : data.bitSize + 8 ≤ inf) (page : Nat) (a : Anchor) {pos : Nat} (hlow : window.low ≤ pos)
    (hhigh : pos ≤ window.high) :
    a.holds (data.extract (loadStart window page) (loadStop window data.size))
      (pos - 8 * loadStart window page) =
      a.holds data pos := by
  obtain ⟨hle, hsize⟩ := window_low_le_high h (by omega)
  obtain ⟨hbase, -, hframes⟩ := frames_load hle hsize hinf page
  rw [Anchor.holds_part hframes (Nat.sub_le_sub_right hlow _) (Nat.sub_le_sub_right hhigh _),
    Nat.add_sub_cancel' (hbase.trans hlow)]

namespace Tree

variable {ν : Type}

/-- A window without instances holds no match. -/
theorem siftedIn_eq_none {t : Tree ν} (ht : t.Valid) (table : SkipTable)
    (h : contentWindow t.deduced.sample region data.bitSize mode = none) :
    t.siftedIn table data region mode = none := by
  unfold siftedIn
  split
  case isTrue => rfl
  case isFalse hregion =>
    obtain ⟨hdefined, hlow⟩ := not_or.1 hregion
    -- the region is sound, so it was the tree that has no instances
    have hundefined : ¬ t.deduced.sample.Defined := by
      intro hsample
      unfold contentWindow at h
      rw [if_neg (by rw [not_or, not_or]; exact ⟨not_not.2 hsample, hdefined, hlow⟩)] at h
      exact absurd h (by simp)
    have hnone : ∀ pos ≤ min region.high data.bitSize,
        t.plainHit data (min region.high data.bitSize) pos = none := by
      intro pos hpos
      rw [plainHit, plainAt_eq_none ht (Nat.min_le_right ..) hpos fun hroom => hundefined hroom.1,
        Option.map_none]
    rw [not_not] at hdefined
    unfold BitRange.Defined at hdefined
    cases mode with
    | anchored => exact hnone _ (by omega)
    | full =>
      dsimp only
      rw [hnone _ (by omega), Option.filter_none]
    | search =>
      rw [List.findSome?_eq_none_iff]
      intro pos hpos
      obtain ⟨k, hk, rfl⟩ := List.mem_range'.1 hpos
      unfold SkipTable.sift
      split
      case isTrue => rfl
      case isFalse => exact hnone _ (by omega)

/-- A match at the start of the region stops in the window, and so does all that is tried on the
way. -/
theorem plainAt_window {t : Tree ν} (ht : t.Valid) (hmode : mode ≠ .full)
    (hinf : data.bitSize < inf)
    (h : contentWindow t.deduced.sample region data.bitSize mode = some window) :
    t.plainAt data window.high window.low =
      t.plainAt data (min region.high data.bitSize) window.low := by
  obtain ⟨-, hregion, hlow, hwlow, hwhigh⟩ := contentWindow_eq_some h
  obtain ⟨hle, -⟩ := window_low_le_high h hinf
  cases mode with
  | full => exact absurd rfl hmode
  | search => rw [hwhigh, if_neg (by decide), Nat.min_self]
  | anchored =>
    rw [if_pos (by decide)] at hwhigh
    by_cases hcut : satAdd region.low t.deduced.sample.high < min region.high data.bitSize
    case neg =>
      rw [hwhigh]
      congr 1
      omega
    case pos =>
      -- the window is cut behind the longest instance, so the limit does not matter
      symm
      apply plainAt_limit ht (by omega) (Nat.min_le_right ..) hle
      intro w hw
      have hextent := (bounds_deduced ht).extent_le_high hw
      unfold Bits.extent at hextent
      unfold satAdd at hcut hwhigh
      omega

/-- The window holds every match of the region that the mode asks for. -/
theorem siftedIn_window {t : Tree ν} (ht : t.Valid) (table : SkipTable) (hmode : mode ≠ .full)
    (hinf : data.bitSize < inf)
    (h : contentWindow t.deduced.sample region data.bitSize mode = some window) :
    t.siftedIn table data window mode = t.siftedIn table data region mode := by
  obtain ⟨-, hregion, hlow, hwlow, hwhigh⟩ := contentWindow_eq_some h
  obtain ⟨hle, hsize⟩ := window_low_le_high h hinf
  have hat := plainAt_window ht hmode hinf h
  have hwindow : ¬ (¬ window.Defined ∨ data.bitSize < window.low) := by
    rw [not_or, not_not, hwlow]
    exact ⟨hle, by omega⟩
  have hboth : ¬ (¬ region.Defined ∨ data.bitSize < region.low) := by
    rw [not_or, not_not]
    exact ⟨hregion, by omega⟩
  unfold siftedIn
  dsimp only
  rw [if_neg hwindow, if_neg hboth, Nat.min_eq_left hsize, ← hwlow]
  cases mode with
  | full => exact absurd rfl hmode
  | anchored =>
    dsimp only
    rw [plainHit, plainHit, hat]
  | search =>
    have hsame : window.high = min region.high data.bitSize := by
      rw [hwhigh, if_neg (by decide), Nat.min_self]
    rw [hsame]

/-- A full match is an anchored one that stops at the end of the region. -/
theorem siftedIn_full (t : Tree ν) (table : SkipTable) (data : Buffer) (region : BitRange) :
    t.siftedIn table data region .full =
      (t.siftedIn table data region .anchored).filter fun hit =>
        hit.offset + hit.length == min region.high data.bitSize := by
  unfold siftedIn
  dsimp only
  split
  case isTrue => rfl
  case isFalse => rfl

/-- A full match of the window is an anchored one of the region that stops at the end of the
window. -/
theorem siftedIn_window_full {t : Tree ν} (ht : t.Valid) (table : SkipTable)
    (hinf : data.bitSize < inf)
    (h : contentWindow t.deduced.sample region data.bitSize .full = some window) :
    t.siftedIn table data window .full =
      (t.siftedIn table data region .anchored).filter fun hit =>
        hit.offset + hit.length == window.high := by
  -- both modes have the same window
  have hanchored : contentWindow t.deduced.sample region data.bitSize .anchored = some window := h
  obtain ⟨-, hhigh⟩ := window_low_le_high hanchored hinf
  rw [siftedIn_full, siftedIn_window ht table (by decide) hinf hanchored, Nat.min_eq_left hhigh]

/-- An anchored match is no longer than the longest instance. -/
theorem stop_le_of_siftedIn_anchored {t : Tree ν} (ht : t.Valid) {table : SkipTable}
    (hinf : data.bitSize < inf) {hit : Hit}
    (h : t.siftedIn table data region .anchored = some hit) :
    hit.offset + hit.length ≤ satAdd region.low t.deduced.sample.high := by
  -- the table matters to a search alone
  have hplain : t.plainIn data region .anchored = some hit := h
  obtain ⟨stop, heq, hpos, hstop, hlow⟩ := plainAt_of_plainIn hplain
  obtain ⟨hle, w, hw, hlength, -⟩ := reads_plainAt ht (Nat.min_le_right ..) _ stop hpos hstop
  have hoffset : hit.offset = region.low := hlow (by decide)
  have hextent := (bounds_deduced ht).extent_le_high hw
  rw [heq]
  unfold Bits.extent at hextent
  unfold Hit.between satAdd
  dsimp only
  omega

theorem plainHit_part {t : Tree ν} (ht : t.Valid) {start stop low limit pos : Nat}
    (h : data.Frames start stop low limit) (hinf : data.bitSize < inf) (hlow : low ≤ pos)
    (hpos : pos ≤ limit) :
    t.plainHit data (8 * start + limit) (8 * start + pos) =
      (t.plainHit (data.extract start stop) limit pos).map (·.shift (8 * start)) := by
  have hlimit := h.limit_le
  have hstop := h.stop_le
  have hbits : data.bitSize = 8 * data.size := rfl
  rw [plainHit, plainHit, plainAt_part ht h pos hlow hpos, Option.map_map, Option.map_map]
  congr 1
  funext stop
  simp only [Function.comp, Hit.between, Hit.shift, Hit.mk.injEq, satAdd]
  omega

/-- The same offsets are passed over in a frame as in the buffer. -/
theorem passes_part (table : SkipTable) {start stop low limit : Nat}
    (h : data.Frames start stop low limit) (pos : Nat) :
    table.Passes data (8 * start + limit) (8 * start + pos) ↔
      table.Passes (data.extract start stop) limit pos := by
  have hlimit := h.limit_le
  have hstop := h.stop_le
  have hmod : (8 * start + pos) % 8 = pos % 8 := by omega
  have hdiv : ∀ n, (8 * start + n) / 8 = start + n / 8 := by omega
  unfold SkipTable.Passes Offset.Aligned
  rw [hmod, hdiv, hdiv, Nat.add_lt_add_iff_left]
  refine and_congr_right fun _ => and_congr_right fun hlt => ?_
  have hbyte : (data.extract start stop).getD (pos / 8) 0 = data.getD (start + pos / 8) 0 := by
    have hsize : start + pos / 8 < data.size := by omega
    have hpart : pos / 8 < (data.extract start stop).size := by
      rw [Array.size_extract]
      omega
    rw [Array.getD_eq_getD_getElem?, Array.getD_eq_getD_getElem?, Array.getElem?_eq_getElem hpart,
      Array.getElem?_eq_getElem hsize, Array.getElem_extract]
  rw [hbyte]

/-- A frame is matched as the buffer is there. -/
theorem siftedIn_part {t : Tree ν} (ht : t.Valid) (table : SkipTable) {start stop low limit : Nat}
    (h : data.Frames start stop low limit) (hlow : low ≤ limit) (hinf : data.bitSize < inf)
    (mode : MatchMode) :
    t.siftedIn table data ⟨8 * start + low, 8 * start + limit⟩ mode =
      (t.siftedIn table (data.extract start stop) ⟨low, limit⟩ mode).map (·.shift (8 * start)) := by
  have hlimit := h.limit_le
  have hstop := h.stop_le
  have hbits : data.bitSize = 8 * data.size := rfl
  have hsize : Buffer.bitSize (data.extract start stop) = 8 * (stop - start) :=
    Buffer.bitSize_extract hstop
  -- neither buffer ends before its region does
  have hinside : ¬ (¬ BitRange.Defined ⟨8 * start + low, 8 * start + limit⟩ ∨
      data.bitSize < 8 * start + low) := by
    unfold BitRange.Defined
    dsimp only
    omega
  have hpart : ¬ (¬ BitRange.Defined ⟨low, limit⟩ ∨
      Buffer.bitSize (data.extract start stop) < low) := by
    unfold BitRange.Defined
    dsimp only
    omega
  have hcut : min (8 * start + limit) data.bitSize = 8 * start + limit := by omega
  have hcut' : min limit (Buffer.bitSize (data.extract start stop)) = limit := by omega
  unfold siftedIn
  dsimp only
  rw [if_neg hinside, if_neg hpart, hcut, hcut']
  cases mode with
  | anchored => exact plainHit_part ht h hinf le_rfl hlow
  | full =>
    dsimp only
    rw [plainHit_part ht h hinf le_rfl hlow, plainHit]
    cases t.plainAt (data.extract start stop) limit low with
    | none => rfl
    | some stop =>
      -- a full match of the part ends where one of the buffer does
      have hends : satAdd low (8 * start) + (stop - low) = 8 * start + limit ↔
          low + (stop - low) = limit := by
        unfold satAdd
        omega
      simp only [Option.map_some, Option.filter_some, Hit.between, Hit.shift, beq_iff_eq, hends]
      split <;> rfl
  | search =>
    -- the two grids of offsets differ by the start of the part
    have hcount : 8 * start + limit - (8 * start + low) = limit - low := by omega
    dsimp only
    rw [hcount, ← List.map_add_range', List.findSome?_map, List.map_findSome?]
    apply findSome?_congr
    intro pos hpos
    obtain ⟨k, hk, rfl⟩ := List.mem_range'.1 hpos
    have hpasses := passes_part table h (low + 8 * k)
    simp only [Function.comp, SkipTable.sift, hpasses]
    split
    case isTrue => rfl
    case isFalse => exact plainHit_part ht h hinf (by omega) (by omega)

end Tree

/-! ## Files -/

namespace File

theorem eq_of_load {file : File} {offset length : Nat} {config : ContentConfig} {data : Buffer}
    (h : file.load offset length config = .ok data) :
    data = file.bytes.extract offset (offset + length) := by
  have hread : file.read offset length = .ok data →
      data = file.bytes.extract offset (offset + length) := by
    intro hok
    unfold read at hok
    split at hok
    case isTrue => exact absurd hok (by simp)
    case isFalse => exact (Except.ok.inj hok).symm
  unfold load at h
  split at h
  case isTrue hlength =>
    rw [← Except.ok.inj h, hlength, Nat.add_zero]
    symm
    exact Array.extract_empty_of_stop_le_start (Nat.le_refl offset)
  case isFalse =>
    split at h
    case isTrue => exact (Except.ok.inj h).symm
    case isFalse =>
      split at h
      case isTrue => exact absurd h (by simp)
      case isFalse => exact hread h

/-- A readable file can be loaded as far as it reaches. -/
theorem load_eq_ok {file : File} (h : file.writeOnly = false) {offset length : Nat}
    (hlength : offset + length ≤ file.bytes.size) (config : ContentConfig) :
    ∃ data, file.load offset length config = .ok data := by
  unfold load read
  split
  · exact ⟨_, rfl⟩
  · rw [h]
    simp only [Bool.false_eq_true, not_false_eq_true, and_true, false_or,
      Nat.not_lt.2 hlength, if_false]
    split
    case isTrue => exact ⟨_, rfl⟩
    case isFalse hmap =>
      rw [if_neg fun hboth => hmap hboth.1]
      exact ⟨_, rfl⟩

variable (file : File) {size : Option Nat} {config : ContentConfig}

theorem sizeFor_le (h : size = none ∨ config.useMmap = true) :
    file.sizeFor size config ≤ file.bytes.size := by
  cases size with
  | none => exact le_rfl
  | some size =>
    simp only [sizeFor, if_pos (h.resolve_left (Option.some_ne_none size))]
    exact Nat.min_le_right ..

def contents (size : Option Nat) (config : ContentConfig) : Buffer :=
  file.bytes.take (file.sizeFor size config)

theorem size_contents (h : size = none ∨ config.useMmap = true) :
    (file.contents size config).size = file.sizeFor size config := by
  rw [contents, Buffer.size_take, Nat.min_eq_left (file.sizeFor_le h)]

theorem extract_contents {start stop : Nat} (hstop : stop ≤ file.sizeFor size config) :
    (file.contents size config).extract start stop = file.bytes.extract start stop := by
  unfold contents Buffer.take
  split
  case isTrue => rfl
  case isFalse => rw [Array.extract_extract, Nat.zero_add, Nat.zero_add, Nat.min_eq_left hstop]

theorem ofBytes_sizeFor (h : size = none ∨ config.useMmap = true)
    (hinf : 8 * file.bytes.size + 8 ≤ inf) :
    Offset.ofBytes (file.sizeFor size config) = (file.contents size config).bitSize ∧
      (file.contents size config).bitSize + 8 ≤ inf := by
  have hle := file.sizeFor_le h
  rw [Offset.ofBytes_eq (by omega), Buffer.bitSize, file.size_contents h]
  omega

/-- The windows of a readable file can be loaded. -/
theorem exists_load (h : size = none ∨ config.useMmap = true) (hinf : 8 * file.bytes.size + 8 ≤ inf)
    (hreadable : file.writeOnly = false) {sample : BitRange} (page : Nat)
    (hwindow : contentWindow sample region (Offset.ofBytes (file.sizeFor size config)) mode =
      some window) :
    ∃ data, file.load (loadStart window page)
      (loadStop window (file.sizeFor size config) - loadStart window page) config = .ok data := by
  obtain ⟨hbits, hwhole⟩ := file.ofBytes_sizeFor h hinf
  rw [hbits] at hwindow
  obtain ⟨hlow, hhigh⟩ := window_low_le_high hwindow (by omega)
  obtain ⟨-, hstart, hframes⟩ := frames_load hlow hhigh hwhole page
  have hstop := hframes.stop_le
  rw [file.size_contents h] at hstart hstop
  refine load_eq_ok hreadable ?_ config
  rw [Nat.add_sub_cancel' hstart]
  exact hstop.trans (file.sizeFor_le h)

end File

namespace Tree

variable {t : Tree Note} {file : File} {size : Option Nat} {config : ContentConfig}

/-- What is loaded is matched as the window of the file is. -/
theorem matchIn_loaded (hvalid : t.Valid) (hfaithful : t.Faithful) (hbare : t.Bare)
    (hinf : data.bitSize + 8 ≤ inf)
    (hwindow : contentWindow t.sample region data.bitSize mode = some window) (page : Nat) :
    let base := 8 * loadStart window page
    (t.matchIn (data.extract (loadStart window page) (loadStop window data.size))
      ⟨window.low - base, window.high - base⟩ mode).map (·.shift base) =
        t.matchIn data window mode := by
  intro base
  have hlt : data.bitSize < inf := by omega
  obtain ⟨hle, hhigh⟩ := window_low_le_high hwindow hlt
  obtain ⟨hlow, -, hframes⟩ := frames_load hle hhigh hinf page
  have hpart :
      Buffer.bitSize (data.extract (loadStart window page) (loadStop window data.size)) < inf := by
    rw [Buffer.bitSize_extract hframes.stop_le]
    have hstop := hframes.stop_le
    unfold Buffer.bitSize at hlt
    omega
  have hbase : base ≤ window.low := hlow
  have hmoved :=
    siftedIn_part (valid_compared hvalid) t.skips hframes (Nat.sub_le_sub_right hle _) hlt mode
  change t.compared.siftedIn t.skips data ⟨base + (window.low - base),
    base + (window.high - base)⟩ mode = _
    at hmoved
  rw [Nat.add_sub_cancel' hbase, Nat.add_sub_cancel' (hbase.trans hle)] at hmoved
  rw [matchIn_eq_compared hvalid hfaithful hbare hpart,
    matchIn_eq_compared hvalid hfaithful hbare hlt]
  exact hmoved.symm

/-- If the window can be loaded, the file is matched as the window of its contents is. -/
theorem matchFile_eq_window (hvalid : t.Valid) (hfaithful : t.Faithful) (hbare : t.Bare)
    (hinf : 8 * file.bytes.size + 8 ≤ inf) (hsize : size = none ∨ config.useMmap = true)
    (page : Nat)
    (hwindow : contentWindow t.sample region (file.contents size config).bitSize mode = some window)
    (hload : ∃ data,
      file.load (loadStart window page)
      (loadStop window (file.sizeFor size config) - loadStart window page) config = .ok data) :
    t.matchFile file size region mode config page =
      .ok (t.matchIn (file.contents size config) window mode) := by
  have hcontents := file.size_contents hsize
  obtain ⟨hbits, hwhole⟩ := file.ofBytes_sizeFor hsize hinf
  obtain ⟨data, hdata⟩ := hload
  obtain ⟨hlow, hhigh⟩ := window_low_le_high hwindow (by omega)
  obtain ⟨-, hstart, hframes⟩ := frames_load hlow hhigh hwhole page
  have hbase := ofBytes_loadStart hlow hhigh hwhole page
  rw [← hcontents] at hdata
  have hstop : loadStop window (file.contents size config).size ≤ file.sizeFor size config :=
    hcontents ▸ hframes.stop_le
  -- what was loaded is a part of the contents
  have hpart := File.eq_of_load hdata
  rw [Nat.add_sub_cancel' hstart, ← file.extract_contents hstop] at hpart
  have hmatch := matchIn_loaded hvalid hfaithful hbare hwhole hwindow page
  rw [← hpart, ← hbase] at hmatch
  unfold matchFile
  dsimp only
  rw [hbits, hwindow, ← hcontents]
  dsimp only
  rw [hdata, ← hmatch]
  rfl

/-- Without a window there is nothing to load. -/
theorem matchFile_eq_none (hsize : size = none ∨ config.useMmap = true)
    (hinf : 8 * file.bytes.size + 8 ≤ inf) (page : Nat)
    (hwindow : contentWindow t.sample region (file.contents size config).bitSize mode = none) :
    t.matchFile file size region mode config page = .ok none := by
  obtain ⟨hbits, -⟩ := file.ofBytes_sizeFor hsize hinf
  unfold matchFile
  dsimp only
  rw [hbits, hwindow]

/-- If the window can be loaded, the file is matched as its contents are. -/
theorem matchFile_eq (hvalid : t.Valid) (hfaithful : t.Faithful) (hbare : t.Bare)
    (hinf : 8 * file.bytes.size + 8 ≤ inf) (hsize : size = none ∨ config.useMmap = true)
    (hmode : mode ≠ .full) (page : Nat)
    (hload : ∀ window,
      contentWindow t.sample region (Offset.ofBytes (file.sizeFor size config)) mode = some window →
      ∃ data, file.load (loadStart window page)
      (loadStop window (file.sizeFor size config) - loadStart window page) config = .ok data) :
    t.matchFile file size region mode config page =
      .ok (t.matchIn (file.contents size config) region mode) := by
  have hsample : t.sample = t.compared.deduced.sample := by
    rw [sample_compared hvalid, hfaithful.sample]
  obtain ⟨hbits, hwhole⟩ := file.ofBytes_sizeFor hsize hinf
  have hlt : (file.contents size config).bitSize < inf := by omega
  rw [hbits] at hload
  cases hwindow : contentWindow t.sample region (file.contents size config).bitSize mode with
  | none =>
    rw [matchFile_eq_none hsize hinf page hwindow, matchIn_eq_compared hvalid hfaithful hbare hlt,
      siftedIn_eq_none (valid_compared hvalid) _ (hsample ▸ hwindow)]
  | some window =>
    rw [matchFile_eq_window hvalid hfaithful hbare hinf hsize page hwindow (hload window hwindow),
      matchIn_eq_compared hvalid hfaithful hbare hlt,
      matchIn_eq_compared hvalid hfaithful hbare hlt,
      siftedIn_window (valid_compared hvalid) _ hmode hlt (hsample ▸ hwindow)]

end Tree

end Sigil
