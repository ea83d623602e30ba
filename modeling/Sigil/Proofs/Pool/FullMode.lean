import Sigil.Proofs.Pool.Matching
import Sigil.Registry

namespace Sigil

namespace Pool

variable {p : Pool} {id : PatternId} {file : File} {size : Option Nat} {config : ContentConfig}

/-- The anchored match decides both full matches. The one of the file has to stop where the window
does, the one of the bytes where the region does. -/
theorem WellFormed.full_matches (h : p.WellFormed) (hid : p.contains id = true) (hbare : p.Bare id)
    (hfile : file.bytes.size < 2 ^ 58) (hreadable : file.writeOnly = false)
    (hsize : size = none ∨ config.useMmap = true) (region : BitRange) (page : Nat) :
    let whole := file.contents size config
    let anchored := p.matchIn id whole region .anchored
    let stop := min region.high whole.bitSize
    let reach := satAdd region.low (p.sample id).high
    p.matchFile id file size region .full config page =
        .ok (anchored.filter fun hit => hit.offset + hit.length == min reach stop) ∧
      p.matchIn id whole region .full = anchored.filter (fun hit =>
        hit.offset + hit.length == stop) ∧
      ∀ hit, anchored = some hit → hit.offset + hit.length ≤ reach := by
  intro whole anchored stop reach
  have hinf : 8 * file.bytes.size + 8 ≤ inf := by
    unfold inf
    omega
  obtain ⟨hbits, hwhole⟩ : _ = whole.bitSize ∧ whole.bitSize + 8 ≤ inf :=
    file.ofBytes_sizeFor hsize hinf
  have hlt : whole.bitSize < inf := by omega
  obtain ⟨t, ht, hunfolds⟩ := h.exists_tree hid
  have hvalid := hunfolds.valid
  have hfaithful := hunfolds.faithful
  have hplain := hunfolds.bare hbare
  have hcompared := Tree.valid_compared hvalid
  have hsample : p.sample id = t.sample := hunfolds.sample.symm
  have hdeduced : t.sample = t.compared.deduced.sample := by
    rw [hfaithful.sample, Tree.sample_compared hvalid]
  have hmatch : ∀ mode,
      p.matchIn id whole region mode = t.compared.siftedIn t.skips whole region mode := by
    intro mode
    rw [matchIn, ht]
    exact Tree.matchIn_eq_compared hvalid hfaithful hplain hlt region mode
  have hanchored : anchored = t.compared.siftedIn t.skips whole region .anchored := hmatch .anchored
  refine ⟨?_, ?_, ?_⟩
  · rw [matchFile, ht]
    dsimp only
    cases hwindow : contentWindow t.sample region whole.bitSize .full with
    | none =>
      have hnone : anchored = none := by
        rw [hanchored]
        exact Tree.siftedIn_eq_none hcompared _ (hdeduced ▸ hwindow)
      rw [Tree.matchFile_eq_none hsize hinf page hwindow, hnone, Option.filter_none]
    | some window =>
      have hload := file.exists_load hsize hinf hreadable page (hbits.symm ▸ hwindow)
      have hhigh : window.high = min reach stop := by
        rw [(contentWindow_eq_some hwindow).2.2.2.2, if_pos (by decide), Nat.min_assoc, ← hsample]
      rw [Tree.matchFile_eq_window hvalid hfaithful hplain hinf hsize page hwindow hload,
        Tree.matchIn_eq_compared hvalid hfaithful hplain hlt,
        Tree.siftedIn_window_full hcompared _ hlt (hdeduced ▸ hwindow), hhigh, hanchored]
  · rw [hmatch, hanchored]
    exact Tree.siftedIn_full t.compared t.skips whole region
  · intro hit hhit
    have hle := Tree.stop_le_of_siftedIn_anchored hcompared hlt (hanchored ▸ hhit)
    rwa [← hdeduced, ← hsample] at hle

/-- A file has the full matches of its bytes, and besides them those that are as long as the longest
instance and stop inside the region. -/
theorem run_matchFile_full (cs : List Command) (id : PatternId)
    (hid : (run cs).contains id = true) (hbare : (run cs).Bare id) (file : File)
    (hfile : file.bytes.size < 2 ^ 58) (hreadable : file.writeOnly = false) (size : Option Nat)
    (config : ContentConfig) (hsize : size = none ∨ config.useMmap = true) (region : BitRange)
    (page : Nat) :
    let p := run cs
    let whole := file.contents size config
    let anchored := p.matchIn id whole region .anchored
    let stop := min region.high whole.bitSize
    let reach := satAdd region.low (p.sample id).high
    p.matchFile id file size region .full config page =
        .ok (anchored.filter fun hit => hit.offset + hit.length == min reach stop) ∧
      p.matchIn id whole region .full = anchored.filter (fun hit =>
        hit.offset + hit.length == stop) ∧
      (p.matchFile id file size region .full config page = .ok (p.matchIn id whole region .full) ↔
        ∀ hit, anchored = some hit → hit.offset + hit.length = reach → stop ≤ reach) := by
  intro p whole anchored stop reach
  obtain ⟨hread, hfull, hlongest⟩ :=
    (wellFormed_run cs).full_matches hid hbare hfile hreadable hsize region page
  refine ⟨hread, hfull, ?_⟩
  rw [hread, hfull, Except.ok.injEq]
  change anchored.filter (fun hit => hit.offset + hit.length == min reach stop) =
    anchored.filter (fun hit => hit.offset + hit.length == stop) ↔ _
  cases hhit : anchored with
  | none => exact ⟨fun _ hit h => absurd h (by simp), fun _ => rfl⟩
  | some hit =>
    have hle : hit.offset + hit.length ≤ reach := hlongest hit hhit
    simp only [Option.filter_some, beq_iff_eq, Option.some.injEq, forall_eq']
    by_cases hreach : stop ≤ reach
    case pos => simp only [Nat.min_eq_right hreach, hreach, implies_true]
    case neg =>
      -- no instance reaches the end of the region
      rw [Nat.min_eq_left (by omega), if_neg (by omega : ¬ hit.offset + hit.length = stop)]
      split
      case isTrue hends => exact ⟨fun h => absurd h (by simp), fun h => absurd (h hends) hreach⟩
      case isFalse hends => exact ⟨fun _ h => absurd h hends, fun _ => rfl⟩

/-- The file `ab` is all of the literal `ab`. -/
theorem run_matchFile_full_exact :
    (run [.lit [97, 98]]).matchFile ⟨0⟩ { bytes := #[97, 98] } none .full .full {} pageSize =
      .ok ((run [.lit [97, 98]]).matchIn ⟨0⟩ #[97, 98] .full .full) := by
  refine (run_matchFile_full [.lit [97, 98]] ⟨0⟩ (by decide) (fun n _ =>
    matcher?_eq_none_of_all (by decide) n)
    { bytes := #[97, 98] } (by decide) rfl none {} (Or.inl rfl) .full pageSize).2.2.2 ?_
  decide

/-- The file `abc` begins with the literal `ab`, which is a full match of the file, be it mapped or
read, and none of its bytes. -/
theorem matchFile_full_prefix :
    (∀ config ∈ [({} : ContentConfig), { useMmap := false }],
      (run [.lit [97, 98]]).matchFile ⟨0⟩ { bytes := #[97, 98, 99] } none .full .full
        config pageSize =
        .ok (some ⟨0, 16⟩)) ∧
      (run [.lit [97, 98]]).matchIn ⟨0⟩ #[97, 98, 99] .full .full = none := by
  decide +kernel

end Pool

/-- A registry that asks for full matches recognizes a file wherever it recognizes its bytes. -/
theorem Registry.contentsMatch_file_of_bytes (r : Registry) (t : FileType)
    (hpool : r.pool.WellFormed) (hmode : r.config.content.mode = .full) {id : PatternId}
    (hpattern : t.contentPattern = some id) (hid : r.pool.contains id = true)
    (hbare : r.pool.Bare id) {file : File} (hfile : file.bytes.size < 2 ^ 58)
    (hreadable : file.writeOnly = false) (path : Option Path) (region : BitRange)
    (h : r.contentsMatch t { path := path, contents := .bytes file.bytes } region = .ok true) :
    r.contentsMatch t { path := path, contents := .file file none } region = .ok true := by
  have hsize : (none : Option Nat) = none ∨ r.config.content.useMmap = true := Or.inl rfl
  obtain ⟨hread, hfull, hlongest⟩ :=
    hpool.full_matches hid hbare hfile hreadable hsize region pageSize
  have hcontents : file.contents none r.config.content = file.bytes := by
    rw [File.contents, Buffer.take, File.sizeFor]
    simp
  simp only [hcontents] at hread hfull hlongest
  simp only [contentsMatch, hpattern, hmode, Except.ok.injEq, hfull] at h
  simp only [contentsMatch, hpattern, hmode, hread]
  cases hhit : r.pool.matchIn id file.bytes region .anchored with
  | none => simp [hhit] at h
  | some hit =>
    have hle := hlongest hit hhit
    simp only [hhit, Option.isSome_filter, Option.any_some, beq_iff_eq] at h
    -- the match stops with the region, which the window then holds
    rw [Nat.min_eq_right (h ▸ hle), Option.filter_some, if_pos (by rw [beq_iff_eq]; exact h)]
    rfl

end Sigil
