import Sigil.Proofs.Pool.Builtins
import Sigil.Proofs.Short

namespace Sigil

namespace Shape

def bytes (b : List UInt8) : Shape := .node () (.lit (.ofBytes b))

def anchor (a : Anchor) : Shape := .node () (.anchor a)

end Shape

namespace Pool

variable {p q r : Pool} {id n : PatternId} {k : Kind PatternId} {shape : Shape} {data : Buffer}
  {region : BitRange}

/-- As literals were stored below a pattern, so they still are. -/
theorem Extends.flush (h : p.Extends q) (hp : p.Linked) (hid : p.contains id = true)
    (hflush : p.Flush id) : q.Flush id := by
  intro n hn k hk
  have hreaches := h.reaches hp hid hn
  have hlive := hp.contains_of_reaches hid hreaches
  rw [h.lead n hlive]
  exact hflush n hreaches k ((h.kind? n hlive).symm.trans hk)

/-- A new pattern is flush if what is under it is. -/
theorem flush_add (hp : p.WellFormed) (hsubs : ∀ s ∈ k.subs, p.contains s = true ∧ p.Flush s) :
    (p.add k).2.Flush p.fresh := by
  have hextends : p.Extends (p.add k).2 := extends_add p k fun _ => rfl
  intro n hn layer hlayer
  rcases hn.cases_head with rfl | ⟨s, hs, hsn⟩
  · rw [lead_add, if_pos rfl]
    exact layer.flush_zero
  · rcases embeds_add.1 hs with hold | ⟨-, hmem⟩
    · exact absurd rfl (ne_fresh_of_contains hold.contains)
    · obtain ⟨hlive, hflush⟩ := hsubs s hmem
      exact hextends.flush hp.toLinked hlive hflush n hsn layer hlayer

/-- `q` is a well-formed pool with all patterns of `p`, those without matchers without them. -/
structure Supplies (p q : Pool) : Prop extends Extends p q where
  wellFormed : q.WellFormed
  bare : ∀ n, p.contains n = true → p.Bare n → q.Bare n
  flush : ∀ n, p.contains n = true → p.Flush n → q.Flush n

/-- The pattern has no matchers and the meaning of the shape, whose literals are compared by their
bits. -/
structure Denotes (p : Pool) (id : PatternId) (shape : Shape) : Prop where
  valid : shape.Valid
  live : p.contains id = true
  meaning : p.meaning id = shape.meaning
  bare : p.Bare id
  flush : p.Flush id

namespace Supplies

theorem refl (h : p.WellFormed) : p.Supplies p where
  toExtends := Extends.refl p
  wellFormed := h
  bare _ _ hn := hn
  flush _ _ hn := hn

theorem trans (h : p.Supplies q) (h' : q.Supplies r) : p.Supplies r where
  toExtends := h.toExtends.trans h'.toExtends
  wellFormed := h'.wellFormed
  bare n hn hbare := h'.bare n (h.contains hn) (h.bare n hn hbare)
  flush n hn hflush := h'.flush n (h.contains hn) (h.flush n hn hflush)

theorem denotes (h : p.Supplies q) (hid : p.Denotes id shape) : q.Denotes id shape where
  valid := hid.valid
  live := h.contains hid.live
  meaning := (h.toExtends.meaning hid.live).trans hid.meaning
  bare := h.bare id hid.live hid.bare
  flush := h.flush id hid.live hid.flush

theorem forall₂_denotes (h : p.Supplies q) {ids : List PatternId} {shapes : List Shape}
    (hids : List.Forall₂ p.Denotes ids shapes) : List.Forall₂ q.Denotes ids shapes :=
  hids.imp fun _ _ => h.denotes

end Supplies

/-- What is said about a pattern has no part in its meaning. -/
theorem WellFormed.supplies_modify (h : p.WellFormed) {f : Node → Node} (hf : KeepsPlace f)
    (hroots : ∀ node, (f node).roots = node.roots)
    (hmatcher : ∀ node, (f node).matcher = node.matcher) (id : PatternId) :
    p.Supplies (p.modify id f) := by
  have hextends : p.Extends (p.modify id f) :=
    extends_modify hf hroots (matcher?_modify_eq_none fun node hnode => (hmatcher node).trans hnode)
  have hsame : (p.modify id f).matcher? = p.matcher? := by
    funext n
    exact view_modify (fun o => o.bind (·.matcher)) hmatcher
  exact ⟨hextends, h.modify hf id, fun n hn hbare =>
    (hextends.bare_iff h.toLinked hn hsame).2 hbare,
    fun n hn hflush => hextends.flush h.toLinked hn hflush⟩

/-! ## Matching -/

/-- Without matchers, a pattern of a meaning has a tree of that meaning. -/
theorem Denotes.exists_tree (h : p.Denotes id shape) (hp : p.WellFormed) :
    ∃ t, p.tree? id = some t ∧ p.Unfolds id t ∧ t.Bare ∧ t.Flush ∧ t.meaning = shape.meaning := by
  obtain ⟨t, ht, hunfolds, hmeaning⟩ := hp.meaning_eq_tree h.live
  exact ⟨t, ht, hunfolds, hunfolds.bare h.bare, hp.tree_flush ht h.flush, hmeaning.trans h.meaning⟩

theorem Denotes.matchIn (h : p.Denotes id shape) (hp : p.WellFormed) (hinf : data.bitSize < inf)
    (region : BitRange) (mode : MatchMode) :
    p.matchIn id data region mode = shape.plainIn data region mode := by
  obtain ⟨t, ht, hunfolds, hbare, hflush, hmeaning⟩ := h.exists_tree hp
  rw [Pool.matchIn, ht, ← Tree.plainIn_congr hmeaning]
  exact Tree.matchIn_eq hunfolds.valid hunfolds.faithful hbare hflush hinf region mode

/-- Where all instances are short, buffers can be of any size. -/
theorem Denotes.matchIn_of_short (h : p.Denotes id shape) (hp : p.WellFormed)
    (hshort : Short shape.language) (hhigh : region.high ≤ inf) (mode : MatchMode) :
    p.matchIn id data region mode = shape.plainIn data region mode := by
  obtain ⟨t, ht, hunfolds, hbare, hflush, hmeaning⟩ := h.exists_tree hp
  have hlanguage : t.language = shape.language := by
    rw [← Tree.meaning_language, hmeaning, Tree.meaning_language]
  rw [Pool.matchIn, ht, ← Tree.plainIn_congr hmeaning]
  exact Tree.matchIn_eq_of_short hunfolds.valid hunfolds.faithful hbare hflush (hlanguage ▸ hshort)
    ((Nat.min_le_left ..).trans hhigh) mode

end Pool

/-! ## Layers -/

namespace Edit

open Pool

variable {α : Type} {p : Pool} {id : PatternId} {k : Kind PatternId} {shape result : Shape}
  {b : List UInt8} {subs : List PatternId} {shapes : List Shape}

/-- In every pool, the edit makes a pattern of the shape, and changes nothing of what there is. -/
def Makes (e : Edit PatternId) (shape : Shape) : Prop :=
  ∀ p : Pool, p.WellFormed → Succeeds e p fun c q => p.Supplies q ∧ q.Denotes c shape

theorem succeeds_insert (hp : p.WellFormed) {layer : Kind Shape} (hrel : k.Rel p.Denotes layer)
    (hvalid : layer.Valid) :
    Succeeds (insert k) p fun c q => p.Supplies q ∧ q.Denotes c (.node () layer) := by
  have hsubs : ∀ s ∈ k.subs, p.contains s = true ∧ p.Bare s ∧ p.Flush s := by
    intro s hs
    obtain ⟨_, -, hdenotes⟩ := hrel.exists_of_mem_left hs
    exact ⟨hdenotes.live, hdenotes.bare, hdenotes.flush⟩
  have hlive : ∀ s ∈ k.subs, p.contains s = true := fun s hs => (hsubs s hs).1
  have hextends : p.Extends (p.add k).2 := extends_add p k fun _ => rfl
  have hq : (p.add k).2.WellFormed := hp.add (hrel.valid_iff.2 hvalid) hlive
  have hkind : (p.add k).2.kind? p.fresh = some k := by rw [kind?_add, if_pos rfl]
  have hshape : (Tree.node () layer).Valid := .node hvalid fun s hs => by
    obtain ⟨_, -, hdenotes⟩ := hrel.exists_of_mem hs
    exact hdenotes.valid
  refine Succeeds.of_eq (insert_eq_ok hlive) ⟨⟨hextends, hq, fun n hn hbare => ?_,
    fun n hn hflush => ?_⟩,
    hshape, (contains_add p.fresh).2 (Or.inl rfl), ?_, bare_add hp fun s hs =>
      ⟨hlive s hs, (hsubs s hs).2.1⟩, flush_add hp fun s hs => ⟨hlive s hs, (hsubs s hs).2.2⟩⟩
  · exact (hextends.bare_iff hp.toLinked hn (funext (matcher?_add p k))).2 hbare
  · exact hextends.flush hp.toLinked hn hflush
  · rw [hq.meaning_eq hkind, hextends.map_meaning hlive, hrel.map_eq fun s _ hs => hs.meaning,
      ← Tree.meaning_node ()]

theorem makes_literal {l : Literal} (hl : (Kind.lit l : Kind Shape).Valid) :
    (literal l).Makes (.node () (.lit l)) := by
  intro p hp
  have hflags : ¬ (¬ l.IsPlain ∧ l.bytes? 0 = none) := by
    rintro ⟨hplain, hbytes⟩
    exact Option.some_ne_none _ ((if_pos (hl.2.resolve_left hplain)).symm.trans hbytes)
  unfold literal
  rw [if_neg hl.1, if_neg hflags]
  exact succeeds_insert hp (.lit l) hl

theorem makes_lit (hne : b ≠ []) : (lit b).Makes (Shape.bytes b) :=
  makes_literal ⟨Literal.not_isEmpty_ofBytes hne, Or.inl ⟨rfl, rfl⟩⟩

theorem makes_any {bits : Nat} (hpos : 0 < bits) : (any bits).Makes (.node () (.any bits)) := by
  intro p hp
  unfold any
  rw [if_neg (Nat.ne_of_gt hpos)]
  exact succeeds_insert hp (.any bits) hpos

theorem makes_range {lo hi : UInt8} (hle : lo ≤ hi) :
    (range lo hi).Makes (Builtin.bytes lo hi) := by
  intro p hp
  rw [range_eq_insert hle]
  exact succeeds_insert hp (.range lo hi) hle

theorem makes_anchor (a : Anchor) : (anchor a).Makes (Shape.anchor a) := fun _ hp =>
  succeeds_insert hp (.anchor a) trivial

theorem succeeds_seq (hp : p.WellFormed) (h : List.Forall₂ p.Denotes subs shapes) :
    Succeeds (seq subs) p fun c q => p.Supplies q ∧ q.Denotes c (.node () (.seq shapes)) :=
  succeeds_insert hp (.seq h) trivial

theorem succeeds_alt (hp : p.WellFormed) (h : List.Forall₂ p.Denotes subs shapes) :
    Succeeds (alt subs) p fun c q => p.Supplies q ∧ q.Denotes c (.node () (.alt shapes)) :=
  succeeds_insert hp (.alt h) trivial

/-- What is made first is there for what is made of it. -/
theorem succeeds_bind {β γ : Type} {e : Edit β} {f : β → Edit γ} {P : β → Pool → Prop}
    {Q : γ → Pool → Prop} (h : Succeeds e p fun c q => p.Supplies q ∧ P c q)
    (hf : ∀ c q, p.Supplies q → P c q → Succeeds (f c) q fun d r => q.Supplies r ∧ Q d r) :
    Succeeds (e >>= f) p fun d r => p.Supplies r ∧ Q d r := by
  refine h.bind ?_
  rintro c q ⟨hq, hc⟩
  refine (hf c q hq hc).mono ?_
  rintro d r ⟨hr, hd⟩
  exact ⟨hq.trans hr, hd⟩

/-- Patterns that are made one after the other, where none that is made later changes what is known
of one. -/
theorem succeeds_mapM {γ : Type} (known : Pool → PatternId → γ → Prop)
    (hkept : ∀ {p q c g}, p.Supplies q → known p c g → known q c g) {f : α → Edit PatternId}
    {xs : List α} {gs : List γ}
    (h : List.Forall₂ (fun x g => ∀ p : Pool, p.WellFormed →
      Succeeds (f x) p fun c q => p.Supplies q ∧ known q c g) xs gs)
    (hp : p.WellFormed) :
    Succeeds (xs.mapM f) p fun cs q => p.Supplies q ∧ List.Forall₂ (known q) cs gs := by
  induction h generalizing p with
  | nil => exact Succeeds.pure ⟨Supplies.refl hp, .nil⟩
  | cons hx _ ih =>
    rw [List.mapM_cons]
    refine succeeds_bind (hx p hp) fun c q hq hc => ?_
    refine succeeds_bind (ih hq.wellFormed) fun cs r hr hcs => ?_
    exact Succeeds.pure ⟨Supplies.refl hr.wellFormed, .cons (hkept hr hc) hcs⟩

theorem makes_alt_mapM {f : α → Edit PatternId} {xs : List α} {shapeOf : α → Shape}
    (h : ∀ x ∈ xs, (f x).Makes (shapeOf x)) :
    (do alt (← xs.mapM f) : Edit PatternId).Makes (.node () (.alt (xs.map shapeOf))) := by
  intro p hp
  have hxs : List.Forall₂ (fun x s => (f x).Makes s) xs (xs.map shapeOf) := by
    rw [List.forall₂_map_right_iff, List.forall₂_same]
    exact h
  exact succeeds_bind (succeeds_mapM Denotes Supplies.denotes hxs hp) fun cs q hq hcs =>
    succeeds_alt hq.wellFormed hcs

theorem succeeds_describe (hp : p.WellFormed) (hid : p.contains id = true)
    (f : Description → Description) : Succeeds (describe id f) p fun _ q => p.Supplies q := by
  obtain ⟨node, hnode⟩ := Option.isSome_iff_exists.1 hid
  have hplace : KeepsPlace fun n => { n with description := f n.description } :=
    ⟨fun _ => rfl, fun _ => rfl, fun _ => rfl, fun _ => rfl, fun _ => rfl⟩
  exact Succeeds.of_eq (node_bind_eq hnode _) (hp.supplies_modify hplace (fun _ => rfl) (fun _ =>
    rfl) id)

end Edit

end Sigil
