import Sigil.Proofs.Builtins
import Sigil.Proofs.Pool.Equality
import Sigil.Proofs.Pool.Matching
import Sigil.Proofs.Success

namespace Sigil

inductive Builtin where
  | digit
  | hexDigit
  | letter
  | identifier
deriving DecidableEq

namespace Builtin

def build : Builtin → Edit PatternId
  | digit => Edit.digit
  | hexDigit => Edit.hexDigit
  | letter => Edit.letter
  | identifier => Edit.identifier

def matcher : Builtin → Matcher
  | digit => Matcher.digit
  | hexDigit => Matcher.hexDigit
  | letter => Matcher.letter
  | identifier => Matcher.identifier

def bytes (lo hi : UInt8) : Shape := .node () (.range lo hi)

def underscore : Shape := .node () (.lit (.ofBytes [0x5F]))

def word : Shape := .node () (.alt [bytes 0x61 0x7A, bytes 0x41 0x5A, bytes 0x30 0x39, underscore])

def start : Shape := .node () (.alt [bytes 0x61 0x7A, bytes 0x41 0x5A, underscore])

def shape : Builtin → Shape
  | digit => bytes 0x30 0x39
  | hexDigit => .node () (.alt [bytes 0x30 0x39, bytes 0x61 0x66, bytes 0x41 0x46])
  | letter => .node () (.alt [bytes 0x61 0x7A, bytes 0x41 0x5A])
  | identifier => .node () (.seq [start, .node () (.rep word (.atLeast 0))])

end Builtin

namespace Pool

open Relation (ReflTransGen TransGen)

variable {p q : Pool} {id n : PatternId} {k : Kind PatternId} {made : List (PatternId × Shape)}
  {shape : Shape} {b : Builtin} {data : Buffer} {region : BitRange}

/-- The pattern has the tree and the matcher that it was made with, and nothing under it has a
matcher. -/
structure Carries (p : Pool) (b : Builtin) (id : PatternId) : Prop where
  digest : p.digest id = some b.shape
  matcher? : p.matcher? id = some b.matcher
  below : ∀ n, TransGen p.Embeds id n → p.matcher? n = none

/-! ## Layer by layer -/

structure Made (p : Pool) (made : List (PatternId × Shape)) : Prop where
  wellFormed : p.WellFormed
  digest : ∀ entry ∈ made, p.digest entry.1 = some entry.2
  bare : ∀ entry ∈ made, p.Bare entry.1

theorem contains_of_digest (h : p.digest id = some shape) : p.contains id = true := by
  obtain ⟨node, hnode, -⟩ := Option.map_eq_some_iff.1 h
  exact contains_of_get? hnode

theorem shape_of_digest (h : p.digest id = some shape) : (p.summary id).shape = shape := by
  rw [digest_eq_some (contains_of_digest h)] at h
  exact Option.some.inj h

theorem Extends.digest (h : p.Extends q) (hid : p.digest id = some shape) :
    q.digest id = some shape := by
  have hlive := contains_of_digest hid
  rw [digest_eq_some (h.contains hlive), h.summary id hlive, shape_of_digest hid]

/-- Below what there was, nothing is new. -/
theorem Extends.reaches (h : p.Extends q) (hp : p.Linked) (hid : p.contains id = true)
    (hn : ReflTransGen q.Embeds id n) : ReflTransGen p.Embeds id n := by
  induction hn with
  | refl => exact ReflTransGen.refl
  | tail _ hlast ih => exact ih.tail ((h.embeds_iff (hp.contains_of_reaches hid ih)).1 hlast)

theorem made_nil (h : p.WellFormed) : p.Made [] :=
  ⟨h, fun _ hmem => absurd hmem List.not_mem_nil, fun _ hmem => absurd hmem List.not_mem_nil⟩

theorem Extends.bare_iff (h : p.Extends q) (hp : p.Linked) (hid : p.contains id = true)
    (hmatcher : q.matcher? = p.matcher?) : q.Bare id ↔ p.Bare id := by
  have hreaches : ∀ n, ReflTransGen q.Embeds id n ↔ ReflTransGen p.Embeds id n := fun n =>
    ⟨h.reaches hp hid, ReflTransGen.mono (fun _ _ => h.embeds) _ _⟩
  simp only [Bare, hreaches, hmatcher]

/-- A new pattern has no matcher, and what is under it was there before. -/
theorem bare_add (hp : p.WellFormed) (hsubs : ∀ s ∈ k.subs, p.contains s = true ∧ p.Bare s) :
    (p.add k).2.Bare p.fresh := by
  have hextends : p.Extends (p.add k).2 := extends_add p k fun _ => rfl
  intro n hn
  rcases hn.cases_head with rfl | ⟨s, hs, hsn⟩
  · rw [matcher?_add, matcher?, get?_fresh, Option.bind_none]
  · rcases embeds_add.1 hs with hold | ⟨-, hmem⟩
    · exact absurd rfl (ne_fresh_of_contains hold.contains)
    · obtain ⟨hlive, hbare⟩ := hsubs s hmem
      exact (hextends.bare_iff hp.toLinked hlive (funext (matcher?_add p k))).2 hbare n hsn

/-- A new layer over patterns that have been made. -/
theorem Made.insert (h : p.Made made) {layer : Kind Shape}
    (hrel : k.Rel (fun s shape => (s, shape) ∈ made) layer) (hvalid : layer.Valid) :
    Succeeds (Edit.insert k) p fun c q => q.Made ((c, .node () layer) :: made) := by
  have hsubs : ∀ s ∈ k.subs, p.contains s = true ∧ p.Bare s := by
    intro s hs
    obtain ⟨shape, -, hmem⟩ := hrel.exists_of_mem_left hs
    exact ⟨contains_of_digest (h.digest _ hmem), h.bare _ hmem⟩
  have hextends : p.Extends (p.add k).2 := extends_add p k fun _ => rfl
  have hbare : ∀ entry ∈ made, (p.add k).2.Bare entry.1 := by
    intro entry hentry
    have hlive := contains_of_digest (h.digest entry hentry)
    exact (hextends.bare_iff h.wellFormed.toLinked hlive (funext (matcher?_add p k))).2
      (h.bare entry hentry)
  refine Succeeds.of_eq (Edit.insert_eq_ok fun s hs => (hsubs s hs).1)
    ⟨h.wellFormed.add (hrel.valid_iff.2 hvalid) fun s hs => (hsubs s hs).1,
      List.forall_mem_cons.2 ⟨?_, fun entry hentry => hextends.digest (h.digest entry hentry)⟩,
      List.forall_mem_cons.2 ⟨bare_add h.wellFormed hsubs, hbare⟩⟩
  have hlive : (p.add k).2.contains p.fresh = true := (contains_add p.fresh).2 (Or.inl rfl)
  have hlayer : k.map (fun s => (p.summary s).shape) = layer := by
    rw [hrel.map_eq (g := fun shape => shape) fun s shape hmem => shape_of_digest (h.digest _ hmem)]
    exact Kind.map_id' layer
  rw [digest_eq_some hlive, summary_add, if_pos rfl, ← hlayer]
  exact congrArg (fun layer => some (Tree.node () layer)) (Kind.map_map p.summary (·.shape) k)

theorem Made.range (h : p.Made made) {lo hi : UInt8} (hle : lo ≤ hi) :
    Succeeds (Edit.range lo hi) p fun c q => q.Made ((c, Builtin.bytes lo hi) :: made) := by
  rw [Edit.range_eq_insert hle]
  exact h.insert (.range lo hi) hle

theorem Made.lit (h : p.Made made) {bytes : List UInt8} (hne : bytes ≠ []) :
    Succeeds (Edit.lit bytes) p fun c q =>
      q.Made ((c, .node () (.lit (.ofBytes bytes))) :: made) := by
  rw [Edit.lit_eq_insert hne]
  exact h.insert (.lit _) ⟨Literal.not_isEmpty_ofBytes hne, Or.inl ⟨rfl, rfl⟩⟩

theorem rel_mem_map {entries : List (PatternId × Shape)} (hsub : entries ⊆ made) :
    List.Forall₂ (fun s shape => (s, shape) ∈ made) (entries.map Prod.fst)
      (entries.map Prod.snd) := by
  rw [List.forall₂_map_left_iff, List.forall₂_map_right_iff, List.forall₂_same]
  exact fun entry hentry => hsub hentry

theorem Made.alt (h : p.Made made) (entries : List (PatternId × Shape)) (hsub : entries ⊆ made) :
    Succeeds (Edit.alt (entries.map Prod.fst)) p fun c q =>
      q.Made ((c, .node () (.alt (entries.map Prod.snd))) :: made) :=
  h.insert (.alt (rel_mem_map hsub)) trivial

theorem Made.seq (h : p.Made made) (entries : List (PatternId × Shape)) (hsub : entries ⊆ made) :
    Succeeds (Edit.seq (entries.map Prod.fst)) p fun c q =>
      q.Made ((c, .node () (.seq (entries.map Prod.snd))) :: made) :=
  h.insert (.seq (rel_mem_map hsub)) trivial

theorem Made.rep (h : p.Made made) {s : PatternId} (hs : (s, shape) ∈ made) :
    Succeeds (Edit.rep s (.atLeast 0)) p fun c q =>
      q.Made ((c, .node () (.rep shape (.atLeast 0))) :: made) :=
  h.insert (.rep (R := fun s shape => (s, shape) ∈ made) hs (.atLeast 0)) (atMost_zero _)

/-! ## Matchers -/

theorem setMatcher_eq_ok (hid : p.contains id = true) (m : Option Matcher) :
    Edit.setMatcher id m p = .ok () (p.modify id ({ · with matcher := m })) := by
  obtain ⟨node, hnode⟩ := Option.isSome_iff_exists.1 hid
  exact Edit.node_bind_eq hnode _

theorem matcher?_setMatcher (hid : p.contains id = true) (m : Option Matcher) (n : PatternId) :
    (p.modify id ({ · with matcher := m })).matcher? n = if n = id then m else p.matcher? n := by
  rw [matcher?, get?_modify]
  split
  case isTrue hn =>
    obtain ⟨node, hnode⟩ := Option.isSome_iff_exists.1 hid
    rw [hn, hnode]
    rfl
  case isFalse => rfl

theorem WellFormed.setMatcher (h : p.WellFormed) (id : PatternId) (m : Option Matcher) :
    (p.modify id ({ · with matcher := m })).WellFormed := by
  have hplace : KeepsPlace fun n => { n with matcher := m } :=
    ⟨fun _ => rfl, fun _ => rfl, fun _ => rfl, fun _ => rfl, fun _ => rfl⟩
  exact h.modify hplace id

theorem digest_setMatcher (p : Pool) (id : PatternId) (m : Option Matcher) (n : PatternId) :
    (p.modify id ({ · with matcher := m })).digest n = p.digest n :=
  view_modify (Option.map (·.summary.shape)) fun _ => rfl

theorem embeds_setMatcher (p : Pool) (id : PatternId) (m : Option Matcher) :
    (p.modify id ({ · with matcher := m })).Embeds = p.Embeds :=
  embeds_congr (kind?_modify fun _ => rfl)

/-- The topmost pattern gets a matcher. -/
theorem Made.setMatcher (h : p.Made ((id, b.shape) :: made)) :
    Succeeds (do Edit.setMatcher id (some b.matcher); return id : Edit PatternId) p fun c q =>
      q.WellFormed ∧ q.Carries b c := by
  have hdigest := h.digest _ List.mem_cons_self
  have hlive := contains_of_digest hdigest
  refine (Succeeds.of_eq (P := fun _ q => q = p.modify id ({ · with matcher := some b.matcher }))
    (setMatcher_eq_ok hlive _) rfl).bind ?_
  rintro _ _ rfl
  refine Succeeds.pure ⟨h.wellFormed.setMatcher id _, (digest_setMatcher p id _ id).trans hdigest,
    ?_, fun n hn => ?_⟩
  · rw [matcher?_setMatcher hlive, if_pos rfl]
  · rw [embeds_setMatcher] at hn
    have hne : n ≠ id := by
      rintro rfl
      exact h.wellFormed.acyclic n hn
    rw [matcher?_setMatcher hlive, if_neg hne]
    exact h.bare _ List.mem_cons_self n hn.to_reflTransGen

theorem succeeds_build (hp : p.WellFormed) (b : Builtin) :
    Succeeds b.build p fun id q => q.WellFormed ∧ q.Carries b id := by
  cases b with
  | digit => exact ((made_nil hp).range (by decide)).bind fun _ _ h => h.setMatcher (b := .digit)
  | hexDigit =>
    refine ((made_nil hp).range (by decide)).bind fun digit _ h =>
      (h.range (by decide)).bind fun lower _ h => (h.range (by decide)).bind fun upper _ h => ?_
    exact (h.alt [(digit, Builtin.bytes 0x30 0x39), (lower, Builtin.bytes 0x61 0x66),
      (upper, Builtin.bytes 0x41 0x46)]
      (by simp)).bind fun _ _ h => h.setMatcher (b := .hexDigit)
  | letter =>
    refine ((made_nil hp).range (by decide)).bind fun lower _ h =>
      (h.range (by decide)).bind fun upper _ h => ?_
    exact (h.alt [(lower, Builtin.bytes 0x61 0x7A), (upper, Builtin.bytes 0x41 0x5A)]
      (by simp)).bind
      fun _ _ h => h.setMatcher (b := .letter)
  | identifier =>
    refine ((made_nil hp).range (by decide)).bind fun lower _ h =>
      (h.range (by decide)).bind fun upper _ h =>
      (h.lit (List.cons_ne_nil _ _)).bind fun underscore _ h =>
        (h.range (by decide)).bind fun digit _ h => ?_
    refine (h.alt [(lower, Builtin.bytes 0x61 0x7A), (upper, Builtin.bytes 0x41 0x5A),
      (underscore, Builtin.underscore)] ?_).bind fun start _ h => ?_
    · simp [Builtin.underscore]
    refine (h.alt [(lower, Builtin.bytes 0x61 0x7A), (upper, Builtin.bytes 0x41 0x5A),
      (digit, Builtin.bytes 0x30 0x39), (underscore, Builtin.underscore)] ?_).bind fun rest _ h =>
        ?_
    · simp [Builtin.underscore]
    refine (h.rep List.mem_cons_self).bind fun tail _ h => ?_
    exact (h.seq [(start, Builtin.start), (tail, .node () (.rep Builtin.word (.atLeast 0)))]
      (by simp [Builtin.start, Builtin.word])).bind fun _ _ h => h.setMatcher (b := .identifier)

end Pool

/-! ## The trees -/

namespace Builtin

open Matcher

theorem readsByte_bytes (lo hi : UInt8) : (bytes lo hi).ReadsByte (inRange lo hi) :=
  Tree.readsByte_range () lo hi

theorem readsByte_underscore : underscore.ReadsByte (· == 0x5F) := Tree.readsByte_lit () 0x5F

theorem readsByte_digit : digit.shape.ReadsByte Ascii.isDigit :=
  (readsByte_bytes 0x30 0x39).congr fun b => by simp [inRange, Ascii.isDigit]

theorem readsByte_hexDigit : hexDigit.shape.ReadsByte Ascii.isHexDigit :=
  (Tree.readsByte_alt () (.cons (readsByte_bytes 0x30 0x39) (.cons (readsByte_bytes 0x61 0x66)
    (.cons (readsByte_bytes 0x41 0x46) .nil)))).congr fun b => by
      simp [inRange, Ascii.isHexDigit, Ascii.isDigit, Bool.or_assoc]

theorem readsByte_letter : letter.shape.ReadsByte Ascii.isLetter :=
  (Tree.readsByte_alt () (.cons (readsByte_bytes 0x61 0x7A)
    (.cons (readsByte_bytes 0x41 0x5A) .nil))).congr fun b => by
    simp [inRange, Ascii.isLetter, Ascii.isLower, Ascii.isUpper]

theorem readsByte_start : start.ReadsByte Ascii.isIdentifierStart :=
  (Tree.readsByte_alt () (.cons (readsByte_bytes 0x61 0x7A) (.cons (readsByte_bytes 0x41 0x5A)
    (.cons readsByte_underscore .nil)))).congr fun b => by
      simp [inRange, Ascii.isIdentifierStart, Ascii.isLetter, Ascii.isLower, Ascii.isUpper,
        Bool.or_assoc]

theorem readsByte_word : word.ReadsByte Ascii.isWord :=
  (Tree.readsByte_alt () (.cons (readsByte_bytes 0x61 0x7A) (.cons (readsByte_bytes 0x41 0x5A)
    (.cons (readsByte_bytes 0x30 0x39) (.cons readsByte_underscore .nil))))).congr fun b => by
      simp [inRange, Ascii.isWord, Ascii.isLetter, Ascii.isDigit, Ascii.isLower, Ascii.isUpper,
        Bool.or_assoc]

theorem representable_shape (b : Builtin) : b.shape.Each fun s => s.kind.Representable := by
  cases b <;> simp [shape, bytes, underscore, start, word, Tree.each_node, Tree.kind, Kind.subs,
    Kind.Representable]
  all_goals decide

theorem flush_shape (b : Builtin) : b.shape.Each fun s => ∀ lead, s.kind.Flush lead := by
  cases b <;> simp [shape, bytes, underscore, start, word, Tree.each_node, Tree.kind, Kind.subs,
    Kind.Flush]
  all_goals decide

end Builtin

/-! ## Matching -/

namespace Pool

open Relation (TransGen)
open Builtin

variable {p : Pool} {id : PatternId} {b : Builtin} {data : Buffer} {region : BitRange}

/-- Without matchers, the pattern matches as the tree that it was made with. -/
theorem WellFormed.matchIn_of_bare (h : p.WellFormed) (hdigest : p.digest id = some b.shape)
    (hbare : p.Bare id) (hhigh : region.high ≤ inf) (mode : MatchMode) :
    p.matchIn id data region mode = b.shape.plainIn data region mode := by
  obtain ⟨t, ht, hunfolds⟩ := h.exists_tree (contains_of_digest hdigest)
  have hshape : t.shape = b.shape := hunfolds.shape.trans (shape_of_digest hdigest)
  rw [matchIn, ht, ← hshape, Tree.plainIn_shape]
  exact Tree.matchIn_eq_of_limit hunfolds.valid hunfolds.faithful (hunfolds.bare hbare)
    (Tree.flush_of_shape (hshape ▸ b.flush_shape)) ((Nat.min_le_left ..).trans hhigh)
    (Or.inr (Tree.representable_of_shape (hshape ▸ b.representable_shape))) mode

/-- So it does with its matcher, in a region that begins at a byte boundary. -/
theorem WellFormed.matchIn_of_carries (h : p.WellFormed) (hid : p.Carries b id)
    (haligned : Offset.Aligned region.low) (hhigh : region.high ≤ inf) (mode : MatchMode) :
    p.matchIn id data region mode = b.shape.plainIn data region mode := by
  obtain ⟨t, ht, hunfolds⟩ := h.exists_tree (contains_of_digest hid.digest)
  have hshape : t.shape = b.shape := hunfolds.shape.trans (shape_of_digest hid.digest)
  have hmatcher : t.note.matcher = some b.matcher := by
    obtain ⟨node, hnode, hnote⟩ := exists_node_of_tree? ht
    rw [hnote, ← hid.matcher?, matcher?, hnode]
    rfl
  have hlimit : min region.high data.bitSize ≤ data.bitSize := Nat.min_le_right ..
  have hinf : min region.high data.bitSize ≤ inf := (Nat.min_le_left ..).trans hhigh
  have hreads : ∀ {cls}, b.shape.ReadsByte cls → t.ReadsByte cls :=
    fun h => (Tree.readsByte_shape t).1 (hshape ▸ h)
  rw [matchIn, ht, ← hshape, Tree.plainIn_shape]
  show t.matchIn data region mode = _
  cases b with
  | digit => exact (hreads readsByte_digit).matchIn_eq hmatcher hinf (Or.inl haligned) mode
  | hexDigit => exact (hreads readsByte_hexDigit).matchIn_eq hmatcher hinf (Or.inl haligned) mode
  | letter => exact (hreads readsByte_letter).matchIn_eq hmatcher hinf (Or.inl haligned) mode
  | identifier =>
    refine Tree.matchIn_eq_of_matcher hmatcher Matcher.scans_identifier hinf
      (Tree.reads_plainAt hunfolds.valid hlimit).forward (fun k _ mode hmode => ?_) mode
    obtain ⟨i, hi⟩ := Nat.dvd_of_mod_eq_zero haligned
    rw [hi, ← Nat.mul_add, ← Tree.plainHit_shape, hshape]
    exact Tree.identifier_eq_plainHit readsByte_start readsByte_word hlimit (i + k) hmode

/-- In every pool with a history, the patterns that come with a matcher can be made. While such a
pattern keeps its tree and its matcher, and nothing under it is given one, it matches in every
region that begins at a byte boundary as it does when the matcher is removed. And a search of a
built-in matcher, from any offset at all, answers as the matcher does at the first offset up to the
end of the buffer, in steps of a byte, at which it answers. -/
theorem run_builtin_eq_tree (cs : List Command) :
    (∀ b : Builtin, ∃ id q, b.build (run cs) = .ok id q ∧ q.Carries b id ∧
      ∀ ds : List Command, let r := ds.foldl (fun p c => c.apply p) q
        r.Carries b id → ∃ s, Edit.setMatcher id none r = .ok () s ∧
          ∀ (data : Buffer) (region : BitRange) (mode : MatchMode), Offset.Aligned region.low →
            region.high ≤ inf →
            r.matchIn id data region mode = s.matchIn id data region mode) ∧
      ∀ m : Matcher, m.IsBuiltin → ∀ (data : Buffer) (pos : Nat) (hit : Hit),
        m data pos .search = some hit ↔
          ∃ k, pos + 8 * k ≤ data.bitSize ∧ m data (pos + 8 * k) .anchored = some hit ∧
            ∀ j < k, m data (pos + 8 * j) .anchored = none := by
  refine ⟨fun b => ?_, fun m hm data pos hit => hm.scans.eq_some_iff⟩
  obtain ⟨id, q, hrun, hq, hcarries⟩ := succeeds_build (wellFormed_run cs) b
  refine ⟨id, q, hrun, hcarries, fun ds => ?_⟩
  intro r hid
  have hr : r.WellFormed := hq.foldl_apply ds
  have hlive := contains_of_digest hid.digest
  refine ⟨_, setMatcher_eq_ok hlive none, fun data region mode haligned hhigh => ?_⟩
  have hdigest := (digest_setMatcher r id none id).trans hid.digest
  have hbare : (r.modify id ({ · with matcher := none })).Bare id := by
    intro n hn
    rw [matcher?_setMatcher hlive]
    split
    case isTrue => rfl
    case isFalse hne =>
      rw [embeds_setMatcher] at hn
      exact hid.below n ((Relation.reflTransGen_iff_eq_or_transGen.1 hn).resolve_left hne)
  rw [hr.matchIn_of_carries hid haligned hhigh,
    (hr.setMatcher id none).matchIn_of_bare hdigest hbare hhigh]

/-- An identifier within a region that ends in the middle of a byte, and a search for a digit across
two bytes. -/
theorem run_builtin_eq_tree_identifier :
    let q := Edit.identifier.after (run [.lit [95]])
    Edit.identifier (run [.lit [95]]) = .ok ⟨8⟩ q ∧
      Matcher.digit #[0x00, 0x03, 0x90] 4 .search = some ⟨12, 8⟩ ∧
      ∃ s, Edit.setMatcher ⟨8⟩ none q = .ok () s ∧
        s.matchIn ⟨8⟩ #[57, 32, 95, 120, 49, 121] ⟨8, 44⟩ .search = some ⟨16, 24⟩ := by
  have hrun : Edit.identifier (run [.lit [95]]) =
      .ok ⟨8⟩ (Edit.identifier.after (run [.lit [95]])) := rfl
  intro q
  obtain ⟨id, q', hrun', hcarries, hlater⟩ := (run_builtin_eq_tree [.lit [95]]).1 .identifier
  obtain ⟨rfl, rfl⟩ := EStateM.Result.ok.inj (hrun'.symm.trans hrun)
  obtain ⟨s, hs, hsame⟩ := hlater [] hcarries
  refine ⟨hrun, ?_, s, hs, ?_⟩
  · refine ((run_builtin_eq_tree [.lit [95]]).2 Matcher.digit .digit _ _ _).2
      ⟨1, by decide, by decide, ?_⟩
    intro j hj
    obtain rfl : j = 0 := Nat.lt_one_iff.1 hj
    decide
  · rw [← hsame _ _ _ (by decide) (by decide)]
    decide

end Pool

end Sigil
