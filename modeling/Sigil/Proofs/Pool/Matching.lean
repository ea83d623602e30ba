import Sigil.Proofs.Content
import Sigil.Proofs.Meaning
import Sigil.Proofs.Pool.Command

namespace Sigil.Pool

open Relation (ReflTransGen)

variable {p q : Pool} {id c : PatternId} {t : Tree Note} {data : Buffer}

/-- No pattern at or under `id` has a matcher of its own. -/
def Bare (p : Pool) (id : PatternId) : Prop := ∀ n, ReflTransGen p.Embeds id n → p.matcher? n = none

def language (p : Pool) (id : PatternId) : Language Bool := ((p.tree? id).map Tree.language).getD 0

theorem language_eq (h : p.tree? id = some t) : p.language id = t.language := by
  rw [language, h, Option.map_some, Option.getD_some]

def plainIn (p : Pool) (id : PatternId) (data : Buffer) (region : BitRange) (mode : MatchMode) :
    Option Hit := do
  (← p.tree? id).plainIn data region mode

theorem Unfolds.bare (h : p.Unfolds id t) (hbare : p.Bare id) : t.Bare := by
  apply h.origin.mono
  intro s hs
  obtain ⟨n, hn, htree⟩ := hs
  obtain ⟨node, hnode, hnote⟩ := exists_node_of_tree? htree
  have hmatcher := hbare n hn
  rw [matcher?, hnode, Option.bind_some] at hmatcher
  rw [hnote, ← hmatcher]
  rfl

/-- No literal with flags at or under `id` begins inside a byte of its storage. Such a literal is
compared by the bytes that hold it, while all else that is said about it goes by its bits. -/
def Flush (p : Pool) (id : PatternId) : Prop :=
  ∀ n, ReflTransGen p.Embeds id n → ∀ k, p.kind? n = some k → k.Flush (p.lead n)

theorem Aligned.flush (h : p.Aligned) (id : PatternId) : p.Flush id := by
  intro n _ k _
  rw [h n]
  exact k.flush_zero

theorem WellFormed.tree_flush (h : p.WellFormed) (ht : p.tree? id = some t) (hflush : p.Flush id) :
    t.Flush := by
  apply (h.unfolds ht).origin.mono
  intro s hs
  obtain ⟨n, hn, htree⟩ := hs
  obtain ⟨node, hnode, -⟩ := exists_node_of_tree? htree
  obtain ⟨k, rfl, hrel⟩ := h.exists_layer hnode htree
  have hkind : node.kind.Flush (p.lead n) := hflush n hn _ (kind?_of_get? hnode)
  rw [lead, hnode, Option.map_some, Option.getD_some] at hkind
  exact hrel.flush_iff.1 hkind

/-- What holds of each node can be told by looking at all of them. -/
theorem of_all_nodes {f : Node → Bool} (h : p.nodes.toList.all (fun o => o.all f) = true)
    {node : Node} (hnode : p.get? id = some node) : f node = true := by
  rw [get?, Option.join_eq_some_iff, ← Array.getElem?_toList] at hnode
  exact List.all_eq_true.1 h _ (List.mem_of_getElem? hnode)

theorem matcher?_eq_none_of_all (h : p.nodes.toList.all (fun o => o.all (·.matcher.isNone)) = true)
    (n : PatternId) : p.matcher? n = none := by
  rw [matcher?]
  cases hnode : p.get? n with
  | none => rfl
  | some node => exact Option.isNone_iff_eq_none.1 (of_all_nodes h hnode)

theorem aligned_of_all (h : p.nodes.toList.all (fun o => o.all (·.lead == 0)) = true) :
    p.Aligned := by
  intro n
  rw [lead]
  cases hnode : p.get? n with
  | none => rfl
  | some node => exact beq_iff_eq.1 (of_all_nodes (f := fun node => node.lead == 0) h hnode)

theorem WellFormed.matchIn_eq_plainIn (h : p.WellFormed) (hid : p.contains id = true)
    (hbare : p.Bare id) (hflush : p.Flush id) (hinf : data.bitSize < inf) (region : BitRange)
    (mode : MatchMode) :
    p.matchIn id data region mode = p.plainIn id data region mode := by
  obtain ⟨t, ht, hunfolds⟩ := h.exists_tree hid
  rw [matchIn, plainIn, ht]
  exact Tree.matchIn_eq hunfolds.valid hunfolds.faithful (hunfolds.bare hbare)
    (h.tree_flush ht hflush) hinf region
    mode

/-- The bits of `a`, stored in the bytes `06` and `10`, are found in the byte `06` by a match that
is asked for there, but not by a search: no instance begins with that byte. -/
theorem matchIn_nocase_inside_bytes :
    let p := run [.literal { Literal.ofBytes [97] with nocase := true } 4]
    p.plainIn ⟨0⟩ #[6] .full .search = none ∧ p.plainIn ⟨0⟩ #[6] .full .anchored = none ∧
      p.matchIn ⟨0⟩ #[6] .full .search = none ∧ p.matchIn ⟨0⟩ #[6] .full .anchored =
        some ⟨0, 8⟩ := by
  decide

/-! ## Files -/

/-- Where its window can be loaded, a file is matched as its bytes are. The window is cut where no
repetition sees it, and what is loaded begins before the window and tells anchors all that they ask
for. -/
theorem run_matchFile_eq_matchIn (cs : List Command) (id : PatternId)
    (hid : (run cs).contains id = true) (hbare : (run cs).Bare id) (file : File)
    (hfile : file.bytes.size < 2 ^ 58) (size : Option Nat) (config : ContentConfig)
    (hsize : size = none ∨ config.useMmap = true) (region : BitRange) (mode : MatchMode)
    (hmode : mode = .anchored ∨ mode = .search) (page : Nat)
    (hload : ∀ window,
      contentWindow ((run cs).sample id) region (Offset.ofBytes (file.sizeFor size config)) mode =
      some window →
      ∃ data, file.load (loadStart window page)
      (loadStop window (file.sizeFor size config) - loadStart window page) config = .ok data) :
    let p := run cs
    let whole := file.contents size config
    p.matchFile id file size region mode config page = .ok (p.matchIn id whole region mode) ∧
      ∀ window, contentWindow (p.sample id) region (Offset.ofBytes (file.sizeFor size config))
        mode = some window →
        let base := Offset.ofBytes (loadStart window page)
        let part :=
          file.bytes.extract (loadStart window page) (loadStop window (file.sizeFor size config))
        base ≤ window.low ∧ base ≤ window.high ∧
          (∀ (a : Anchor) (pos : Nat), window.low ≤ pos → pos ≤ window.high →
            a.holds part (pos - base) = a.holds whole pos) ∧
          ∀ t, p.tree? id = some t →
            t.plainAt whole window.high window.low =
              t.plainAt whole (min region.high whole.bitSize) window.low := by
  intro p whole
  have hinf : 8 * file.bytes.size + 8 ≤ inf := by
    unfold inf
    omega
  have hnotfull : mode ≠ .full := by
    rcases hmode with rfl | rfl
    · decide
    · decide
  obtain ⟨t, ht, hunfolds⟩ := (wellFormed_run cs).exists_tree hid
  have hsample : p.sample id = t.deduced.sample := by
    rw [← hunfolds.sample, ← hunfolds.faithful.root]
    rfl
  constructor
  · rw [matchFile, matchIn, ht]
    apply Tree.matchFile_eq hunfolds.valid hunfolds.faithful (hunfolds.bare hbare) hinf hsize
      hnotfull page
    rwa [hunfolds.sample]
  · intro window hwindow
    obtain ⟨hbits, hwhole⟩ : _ = whole.bitSize ∧ whole.bitSize + 8 ≤ inf :=
      file.ofBytes_sizeFor hsize hinf
    have hcontents : whole.size = file.sizeFor size config := file.size_contents hsize
    rw [hbits] at hwindow
    obtain ⟨hlow, hhigh⟩ := window_low_le_high hwindow (by omega)
    obtain ⟨hbase, -, hframes⟩ := frames_load hlow hhigh hwhole page
    have hoffset := ofBytes_loadStart hlow hhigh hwhole page
    have hpart : whole.extract (loadStart window page)
        (loadStop window (file.sizeFor size config)) =
          file.bytes.extract (loadStart window page) (loadStop window (file.sizeFor size config)) :=
      file.extract_contents (hcontents ▸ hframes.stop_le)
    rw [hoffset]
    refine ⟨hbase, hbase.trans hlow, ?_, ?_⟩
    · intro a pos hpos hle
      rw [← hpart, ← hcontents]
      exact Anchor.holds_window hwindow hwhole page a hpos hle
    · intro u hu
      rw [ht] at hu
      rw [← Option.some.inj hu]
      exact Tree.plainAt_window hunfolds.valid hnotfull (by omega) (hsample ▸ hwindow)

/-- A line that begins with `b`, at the end of a file of which all but the first byte is loaded. -/
theorem run_matchFile_line_start :
    (run [.anchor .lineStart, .lit [98], .seq [⟨0⟩, ⟨1⟩]]).matchFile ⟨2⟩
      { bytes := #[97, 97, 10, 98] } none
      ⟨16, 32⟩ .search {} 1 = .ok (some ⟨24, 8⟩) := by
  rw [(run_matchFile_eq_matchIn _ ⟨2⟩ (by decide) (fun n _ => matcher?_eq_none_of_all (by decide) n)
    { bytes := #[97, 97, 10, 98] } (by decide) none {} (Or.inl rfl) ⟨16, 32⟩ .search (Or.inr rfl) 1
    fun window hwindow => File.exists_load _ (Or.inl rfl) (by decide) rfl 1 hwindow).1]
  decide

/-! ## Canonical patterns -/

theorem WellFormed.meaning_eq_tree (h : p.WellFormed) (hid : p.contains id = true) :
    ∃ t, p.tree? id = some t ∧ p.Unfolds id t ∧ t.meaning = p.meaning id := by
  obtain ⟨t, ht, hunfolds⟩ := h.exists_tree hid
  exact ⟨t, ht, hunfolds, by rw [meaning, ← hunfolds.shape, Tree.meaning_shape]⟩

/-- Patterns of one meaning, be it in two pools, match the same and have the same instances. -/
theorem WellFormed.agree_of_meaning_eq (hp : p.WellFormed) (hq : q.WellFormed)
    (hid : p.contains id = true) (hc : q.contains c = true) (h : q.meaning c = p.meaning id) :
    (∀ data region mode, q.plainIn c data region mode = p.plainIn id data region mode) ∧
      q.sample c = p.sample id ∧ q.language c = p.language id := by
  obtain ⟨t, ht, htunfolds, htmeaning⟩ := hp.meaning_eq_tree hid
  obtain ⟨u, hu, huunfolds, humeaning⟩ := hq.meaning_eq_tree hc
  have hsame : u.meaning = t.meaning := by rw [humeaning, h, htmeaning]
  have hlanguage : u.language = t.language := by
    rw [← Tree.meaning_language, ← Tree.meaning_language, hsame]
  refine ⟨?_, ?_, ?_⟩
  · intro data region mode
    rw [plainIn, plainIn, ht, hu]
    exact Tree.plainIn_congr hsame data region mode
  · -- both ranges of lengths are exact, and the language is the same
    have hsample := huunfolds.faithful.bounds huunfolds.valid
    rw [hlanguage] at hsample
    rw [← htunfolds.sample, ← huunfolds.sample]
    exact hsample.unique (htunfolds.faithful.bounds htunfolds.valid)
  · rw [language, language, ht, hu]
    exact hlanguage

/-- A byte cut out of two others is taken for the first of these. -/
theorem canonicalize_byte_inside_bytes :
    let p := run [.literal (.ofBytes [97]) 4, .lit [7], .alt [⟨0⟩, ⟨1⟩]]
    ∃ c q, Edit.canonicalize ⟨2⟩ p = .ok c q ∧ p.matchIn ⟨2⟩ #[97] .full .anchored = some ⟨0, 8⟩ ∧
      q.matchIn c #[97] .full .anchored = none :=
  ⟨_, _, rfl, by decide, by decide⟩

end Sigil.Pool
