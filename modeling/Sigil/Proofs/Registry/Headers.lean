import Sigil.Proofs.ByteStrings
import Sigil.Proofs.Pool.Making
import Sigil.Proofs.Registry.Adoption
import Sigil.Proofs.Registry.Order

namespace Sigil

abbrev Rule := List UInt8 → Bool

namespace Rule

def never : Rule := fun _ => false

def begins (magic : List UInt8) : Rule := fun contents => magic.isPrefixOf contents

end Rule

/-- The shape is of bounded length. It matches nowhere but at the start of the contents, and there
just if they meet the rule. -/
structure Shape.Header (shape : Shape) (rule : Rule) : Prop where
  high : shape.deduced.sample.high < inf
  heads : ∃ take, shape.Heads take ∧ ∀ contents, (take contents).isSome = true ↔
    rule contents = true

section Header

variable {shape : Shape} {rule : Rule}

theorem Shape.Header.short (h : shape.Header rule) (hvalid : shape.Valid) : Short shape.language :=
  (Tree.bounds_deduced hvalid).short h.high

theorem Shape.Header.plainIn (h : shape.Header rule) (hvalid : shape.Valid) (data : Buffer) :
    (shape.plainIn data .full .search).isSome = rule data.toList := by
  obtain ⟨take, hheads, hrule⟩ := h.heads
  rw [hheads.plainIn_full (Tree.plainAt_min_inf hvalid (h.short hvalid) data), Option.isSome_map,
    Bool.eq_iff_iff.2 (hrule data.toList)]

end Header

/-! ## Patterns with rules -/

namespace Pool

variable {p q : Pool} {id m n : PatternId} {shape : Shape} {rule : Rule}

theorem Supplies.sustains (h : p.Supplies q) : p.Sustains q where
  toResembles := h.toExtends.resembles
  wellFormed := h.wellFormed
  contains _ hn := h.toExtends.contains hn

/-- All patterns match by their structure: none has a matcher, and no literal begins inside a byte
of its storage. -/
structure Free (p : Pool) : Prop where
  matcher? : ∀ n, p.matcher? n = none
  aligned : p.Aligned

theorem Resembles.free (h : p.Resembles q) (hp : p.Free) : q.Free where
  matcher? := h.matcher? hp.matcher?
  aligned := h.aligned hp.aligned

/-- What has the meaning of a pattern denotes what the pattern does, where patterns match by their
structure. -/
theorem Denotes.of_meaning_eq (h : p.Denotes m shape) (hn : q.contains n = true)
    (hmeaning : q.meaning n = p.meaning m) (hfree : q.Free) : q.Denotes n shape :=
  ⟨h.valid, hn, hmeaning.trans h.meaning, fun n _ => hfree.matcher? n, hfree.aligned.flush n⟩

def Recognizes (p : Pool) (id : PatternId) (rule : Rule) : Prop :=
  ∃ shape, p.Denotes id shape ∧ shape.Header rule

namespace Recognizes

theorem live (h : p.Recognizes id rule) : p.contains id = true := by
  obtain ⟨_, hdenotes, -⟩ := h
  exact hdenotes.live

theorem of_meaning_eq (h : p.Recognizes m rule) (hn : q.contains n = true)
    (hmeaning : q.meaning n = p.meaning m) (hfree : q.Free) : q.Recognizes n rule := by
  obtain ⟨shape, hdenotes, hshape⟩ := h
  exact ⟨shape, hdenotes.of_meaning_eq hn hmeaning hfree, hshape⟩

theorem sustained (h : p.Recognizes id rule) (hq : p.Sustains q) (hfree : q.Free) :
    q.Recognizes id rule := h.of_meaning_eq (hq.contains id h.live) (hq.meaning_eq h.live) hfree

theorem supplied (h : p.Recognizes id rule) (hq : p.Supplies q) : q.Recognizes id rule := by
  obtain ⟨shape, hdenotes, hshape⟩ := h
  exact ⟨shape, hq.denotes hdenotes, hshape⟩

theorem isSome_matchIn (h : p.Recognizes id rule) (hp : p.WellFormed) (data : Buffer) :
    (p.matchIn id data .full .search).isSome = rule data.toList := by
  obtain ⟨shape, hdenotes, hshape⟩ := h
  rw [hdenotes.matchIn_of_short hp (hshape.short hdenotes.valid) le_rfl,
    hshape.plainIn hdenotes.valid]

end Recognizes

end Pool

/-! ## Registries of types with rules -/

def FileType.Follows (p : Pool) (t : FileType) (rule : Rule) : Prop :=
  t.policy = .name ∧ rule = Rule.never ∨
    (t.policy = .contents ∨ t.policy = .either) ∧ ∃ c, t.contentPattern = some c ∧
      p.Recognizes c rule

theorem FileType.Agrees.exists_content {p q : Pool} {t u : FileType} (h : t.Agrees p q u)
    {n : PatternId} (hn : t.contentPattern = some n) :
    ∃ c, u.contentPattern = some c ∧ p.Agree q n c := by
  have hslot := h.slots .content
  change Option.Rel _ t.contentPattern u.contentPattern at hslot
  rw [hn] at hslot
  generalize u.contentPattern = o at hslot
  cases hslot with
  | @some _ c hagree => exact ⟨c, rfl, hagree⟩

namespace Registry

variable {r s : Registry} {t u : FileType} {rule : Rule} {rules : List (String × Rule)}
  {data : Buffer}

structure Ruled (r : Registry) (rules : List (String × Rule)) : Prop where
  sound : r.Sound fun _ => 0
  free : r.pool.Free
  mode : r.config.content.mode = .search
  nextId : r.nextId = rules.length
  ids : r.types.map (·.1) = (List.range rules.length).map FileTypeId.mk
  follows : List.Forall₂ (fun entry rule => entry.2.name = rule.1 ∧ entry.2.Follows r.pool rule.2)
    r.types rules

theorem Ruled.wellFormed (h : r.Ruled rules) : r.pool.WellFormed := h.sound.holds.wellFormed

theorem Ruled.names (h : r.Ruled rules) : r.types.map (·.2.name) = rules.map (·.1) := by
  rw [← List.forall₂_eq_eq_eq, List.forall₂_map_left_iff, List.forall₂_map_right_iff]
  exact h.follows.imp fun _ _ hentry => hentry.1

/-- A type follows its rule in every pool where its content pattern means the same. -/
theorem follows_of_meaning_eq {p q : Pool} (h : t.Follows p rule) (hpolicy : u.policy = t.policy)
    (hfree : q.Free)
    (hcontent : ∀ n, t.contentPattern = some n → ∃ c, u.contentPattern = some c ∧
      q.contains c = true ∧ q.meaning c = p.meaning n) :
    u.Follows q rule := by
  unfold FileType.Follows at h ⊢
  rw [hpolicy]
  refine h.imp_right (And.imp_right ?_)
  rintro ⟨n, hn, hrecognizes⟩
  obtain ⟨c, hc, hlive, hmeaning⟩ := hcontent n hn
  exact ⟨c, hc, hrecognizes.of_meaning_eq hlive hmeaning hfree⟩

theorem follows_sustained {p q : Pool} (h : t.Follows p rule) (hq : p.Sustains q) (hfree : q.Free) :
    t.Follows q rule := by
  refine h.imp_right (And.imp_right ?_)
  rintro ⟨n, hn, hrecognizes⟩
  exact ⟨n, hn, hrecognizes.sustained hq hfree⟩

/-- The edits that only add leave the types as they are. -/
theorem Ruled.succeeds_onPool {α : Type} (h : r.Ruled rules) {e : Edit α} {P : α → Pool → Prop}
    (he : Succeeds e r.pool fun a q => r.pool.Supplies q ∧ P a q) :
    Succeeds (onPool e) r fun a s => s.Ruled rules ∧ r.pool.Sustains s.pool ∧ P a s.pool := by
  refine (Registry.succeeds_onPool he).mono ?_
  rintro a s ⟨hs, hsupplies, ha⟩
  have htypes : s.types = r.types := by rw [hs]
  have hnext : s.nextId = r.nextId := by rw [hs]
  have hreferences : s.references = r.references := by rw [references, references, htypes]
  have hfree : s.pool.Free := hsupplies.toExtends.resembles.free h.free
  refine ⟨⟨⟨?_, ?_, ?_⟩, hfree, ?_, ?_, ?_, ?_⟩, hsupplies.sustains, ha⟩
  · rw [hreferences]
    exact h.sound.holds.keeps (hsupplies.toExtends.keeps hsupplies.wellFormed)
  · rw [htypes]
    exact h.sound.nodup
  · rw [htypes, hnext]
    exact h.sound.given
  · rw [hs]
    exact h.mode
  · rw [hnext, h.nextId]
  · rw [htypes, h.ids]
  · rw [htypes]
    exact h.follows.imp fun _ _ hentry => hentry.imp_right fun ht =>
      follows_sustained ht hsupplies.sustains hfree

/-- One more type. -/
theorem Ruled.succeeds_register (h : r.Ruled rules)
    (ht : ∀ n ∈ t.patterns, r.pool.contains n = true) (hfollows : t.Follows r.pool rule) :
    Succeeds (register t) r fun _ s => s.Ruled (rules ++ [(t.name, rule)]) ∧
      r.pool.Sustains s.pool := by
  refine ((h.sound.succeeds_register ht).and (register_meaning h.wellFormed ht)).mono ?_
  rintro _ s ⟨hsound, hsustains, hconfig, hnext, u, htypes, hname, hpolicy, hrel⟩
  have hfree : s.pool.Free := hsustains.toResembles.free h.free
  have hnew : u.Follows s.pool rule := follows_of_meaning_eq hfollows hpolicy hfree hrel
  refine ⟨⟨hsound, hfree, by rw [hconfig, h.mode], ?_, ?_, ?_⟩, hsustains⟩
  · rw [hnext, h.nextId, List.length_append, List.length_singleton]
  · rw [htypes, List.map_append, h.ids, List.length_append, List.length_singleton, List.range_succ,
      List.map_append, List.map_singleton, List.map_singleton, h.nextId]
  · rw [htypes]
    refine List.rel_append (h.follows.imp fun _ _ hentry => ?_) (.cons ⟨hname, hnew⟩ .nil)
    exact hentry.imp_right fun ht => follows_sustained ht hsustains hfree

/-- One more type for each element, where none that is registered later changes what is known of
one. -/
theorem Ruled.succeeds_forIn {α : Type} (known : Pool → α → String × Rule → Prop)
    (hkept : ∀ {p q x rule}, known p x rule → p.Sustains q → q.Free → known q x rule)
    {f : α → Registering Unit}
    (hf : ∀ {r : Registry} {rules x rule}, r.Ruled rules → known r.pool x rule →
      Succeeds (f x) r fun _ s => s.Ruled (rules ++ [rule]) ∧ r.pool.Sustains s.pool)
    {xs : List α} {more : List (String × Rule)} (h : r.Ruled rules)
    (hxs : List.Forall₂ (known r.pool) xs more) :
    Succeeds (forIn xs PUnit.unit fun x _ => do
      f x
      return .yield PUnit.unit : Registering PUnit) r fun _ s => s.Ruled (rules ++ more) := by
  induction xs generalizing r rules more with
  | nil =>
    cases hxs
    exact Succeeds.pure (by rwa [List.append_nil])
  | cons x xs ih =>
    obtain _ | @⟨_, rule, _, more, hx, hxs⟩ := hxs
    rw [List.forIn_cons]
    refine ((hf h hx).bind fun _ s hs => Succeeds.pure ⟨rfl, hs⟩).bind
      (P := fun next s => next = .yield PUnit.unit ∧ s.Ruled (rules ++ [rule]) ∧
        r.pool.Sustains s.pool) ?_
    rintro _ s ⟨rfl, hs, hsustains⟩
    rw [List.append_cons]
    exact ih hs (hxs.imp fun _ _ hknown => hkept hknown hsustains hs.free)

/-- Types that pass to patterns of the same meaning follow the rules that they did. -/
theorem forall₂_follows_of_agrees {p q : Pool} (hold : p.Free) (hfree : q.Free)
    {before after : List (FileTypeId × FileType)}
    (h : List.Forall₂ (fun entry rule => entry.2.name = rule.1 ∧
      entry.2.Follows p rule.2) before rules)
    (hagrees : List.Forall₂ (fun a b => b.1 = a.1 ∧ a.2.Agrees p q b.2) before after)
    (hsame : List.Forall₂ SameEntry before after) :
    List.Forall₂ (fun entry rule => entry.2.name = rule.1 ∧
      entry.2.Follows q rule.2) after rules := by
  induction h generalizing after with
  | nil =>
    cases hagrees
    exact .nil
  | cons hentry _ ih =>
    obtain _ | ⟨⟨-, hab⟩, hrest⟩ := hagrees
    obtain _ | ⟨⟨-, hsame⟩, hrest'⟩ := hsame
    refine .cons ⟨?_, follows_of_meaning_eq hentry.2 hab.policy hfree fun n hn => ?_⟩
      (ih hrest hrest')
    · rw [← hsame.rest]
      exact hentry.1
    · obtain ⟨c, hc, hagree⟩ := hab.exists_content hn
      exact ⟨c, hc, hagree.new_live, hagree.meaning hold.aligned⟩

/-- Canonicalization changes no rule. -/
theorem Ruled.succeeds_canonicalizeAll (h : r.Ruled rules) :
    Succeeds canonicalizeAll r fun _ s => s.Ruled rules := by
  have hnumbered : r.Numbered := ⟨h.sound.nodup, h.sound.given⟩
  refine (hnumbered.yields_canonicalizeAll.and_succeeds h.sound.succeeds_canonicalizeAll).mono ?_
  rintro _ s ⟨hreslots, hs⟩
  have hagrees := hs.advances.agrees
  have hfree : s.pool.Free := ⟨hagrees.matcher? h.free.matcher?, hagrees.aligned h.free.aligned⟩
  exact ⟨hs.advances.sound,
    hfree, by rw [hagrees.config, h.mode], by rw [hreslots.nextId, h.nextId],
    (map_fst_of_sameEntry hreslots.types).trans h.ids,
    forall₂_follows_of_agrees h.free hfree h.follows hagrees.types hreslots.types⟩

/-! ## Recognition -/

/-- Without a path no name pattern matches. -/
theorem nameMatches_of_path_eq_none (r : Registry) (t : FileType) (contents : Contents) :
    r.nameMatches t ⟨none, contents⟩ = false := by
  rw [nameMatches_eq]
  cases t.namePattern <;> rfl

theorem typeMatches_of_follows (hp : r.pool.WellFormed) (hmode : r.config.content.mode = .search)
    (ht : t.Follows r.pool rule) (data : Buffer) :
    r.typeMatches t ⟨none, .bytes data⟩ .full none = .ok (rule data.toList) := by
  have hname := r.nameMatches_of_path_eq_none t (.bytes data)
  obtain ⟨hpolicy, rfl⟩ | ⟨hpolicy, c, hc, hrecognizes⟩ := ht
  · rw [typeMatches, Option.getD_none, hpolicy]
    exact congrArg Except.ok hname
  · have hcontents : r.contentsMatch t ⟨none, .bytes data⟩ .full = .ok (rule data.toList) := by
      unfold contentsMatch
      rw [hc, hmode]
      exact congrArg Except.ok (hrecognizes.isSome_matchIn hp data)
    rw [typeMatches, Option.getD_none]
    rcases hpolicy with hpolicy | hpolicy
    · rw [hpolicy]
      exact hcontents
    · rw [hpolicy]
      dsimp only
      rw [hname]
      exact hcontents

theorem firstOf_of_follows (hp : r.pool.WellFormed) (hmode : r.config.content.mode = .search)
    {types : List (FileTypeId × FileType)} {start : Nat}
    (h : List.Forall₂ (fun entry rule => entry.2.name = rule.1 ∧
      entry.2.Follows r.pool rule.2) types rules)
    (hids : types.map (·.1) = (List.range' start rules.length).map FileTypeId.mk) (data : Buffer) :
    r.firstOf ⟨none, .bytes data⟩ .full none types =
      .ok ((rules.findIdx? fun rule => rule.2 data.toList).map fun i => ⟨start + i⟩) := by
  induction h generalizing start with
  | nil => rfl
  | @cons entry rule types rules hentry _ ih =>
    obtain ⟨id, t⟩ := entry
    rw [List.map_cons, List.length_cons, List.range'_succ, List.map_cons, List.cons.injEq] at hids
    obtain ⟨rfl, hids⟩ := hids
    rw [firstOf, typeMatches_of_follows hp hmode hentry.2, List.findIdx?_cons]
    cases rule.2 data.toList with
    | true => rfl
    | false =>
      dsimp only
      rw [ih hids, if_neg Bool.false_ne_true, Option.map_map]
      congr 2
      funext i
      rw [Function.comp_apply, Nat.add_assoc, Nat.add_comm 1]

/-- Contents without a path are of the first type whose rule they meet. -/
theorem Ruled.typeOf_eq (h : r.Ruled rules) (data : Buffer) :
    r.typeOf ⟨none, .bytes data⟩ .full none =
      .ok ((rules.findIdx? fun rule => rule.2 data.toList).map FileTypeId.mk) := by
  have hids := h.ids
  rw [List.range_eq_range'] at hids
  rw [typeOf, firstOf_of_follows h.wellFormed h.mode h.follows hids]
  simp only [Nat.zero_add]

end Registry

end Sigil
