import Sigil.Proofs.Pool.Canonical
import Sigil.Proofs.Pool.Edits
import Sigil.Proofs.Pool.Lifetime

namespace Sigil

/-- A public operation on a pool. -/
inductive Command where
  | literal (l : Literal) (lead : Fin 8 := 0)
  | lit (bytes : List UInt8)
  | litNocase (bytes : List UInt8)
  | any (bits : Nat)
  | range (lo hi : UInt8)
  | anchor (a : Anchor)
  | alt (subs : List PatternId)
  | seq (subs : List PatternId)
  | rep (sub : PatternId) (counts : Repeat)
  | ctx (domain : Domain) (sub : PatternId)
  | startingWith (bytes : List UInt8)
  | endingWith (bytes : List UInt8)
  | equalTo (bytes : List UInt8)
  | digit
  | hexDigit
  | letter
  | identifier
  | pushSub (multi sub : PatternId)
  | setName (id : PatternId) (name : String)
  | setDoc (id : PatternId) (doc : String)
  | setFormat (id : PatternId) (format : DataFormat)
  | setUnit (id : PatternId) (unit : String)
  | setMatcher (id : PatternId) (matcher : Option Matcher)
  | setGrowthBits (bits : Nat)
  | detectMatchers (id : PatternId)
  | retain (id : PatternId)
  | release (id : PatternId)
  | sweep
  | canonicalize (id : PatternId)
  | mutatingCanonicalize (id : PatternId)

namespace Command

def apply : Command → Pool → Pool
  | literal l lead => (Edit.literal l lead).after
  | lit bytes => (Edit.lit bytes).after
  | litNocase bytes => (Edit.litNocase bytes).after
  | any bits => (Edit.any bits).after
  | range lo hi => (Edit.range lo hi).after
  | anchor a => (Edit.anchor a).after
  | alt subs => (Edit.alt subs).after
  | seq subs => (Edit.seq subs).after
  | rep sub counts => (Edit.rep sub counts).after
  | ctx domain sub => (Edit.ctx domain sub).after
  | startingWith bytes => (Edit.startingWith bytes).after
  | endingWith bytes => (Edit.endingWith bytes).after
  | equalTo bytes => (Edit.equalTo bytes).after
  | digit => Edit.digit.after
  | hexDigit => Edit.hexDigit.after
  | letter => Edit.letter.after
  | identifier => Edit.identifier.after
  | pushSub multi sub => (Edit.pushSub multi sub).after
  | setName id name => (Edit.setName id name).after
  | setDoc id doc => (Edit.setDoc id doc).after
  | setFormat id format => (Edit.setFormat id format).after
  | setUnit id unit => (Edit.setUnit id unit).after
  | setMatcher id matcher => (Edit.setMatcher id matcher).after
  | setGrowthBits bits => ({ · with growthBits := bits })
  | detectMatchers id => (Edit.detectMatchers id).after
  | retain id => (Edit.retain id).after
  | release id => (Edit.release id).after
  | sweep => Edit.sweep.after
  | canonicalize id => (Edit.canonicalize id).after
  | mutatingCanonicalize id => (Edit.mutatingCanonicalize id).after

def holders (p : Pool) (n : PatternId) : Command → Nat
  | retain id => if n = id then p.roots n + 1 else p.roots n
  | release id => if n = id then p.roots n - 1 else p.roots n
  | _ => p.roots n

def replaced? : Command → Option PatternId
  | mutatingCanonicalize id => some id
  | _ => none

def builds : Command → Bool
  | setGrowthBits _ | retain _ | release _ | sweep | canonicalize _ | mutatingCanonicalize _ =>
    false
  | _ => true

def pushed? : Command → Option PatternId
  | pushSub multi _ => some multi
  | _ => none

def canonicalizes : Command → Bool
  | canonicalize _ | mutatingCanonicalize _ => true
  | _ => false

end Command

/-- The pool that a list of commands leads to, from an empty one. -/
def Pool.run (cs : List Command) : Pool := cs.foldl (fun p c => c.apply p) {}

namespace Pool

variable {p q r : Pool} {id m n : PatternId} {c : Command}

structure Obeys (c : Command) (p q : Pool) : Prop where
  wellFormed : q.WellFormed
  ages : p.Ages q
  roots : ∀ n, q.roots n = if p.contains n then c.holders p n else 0
  embeds : ∀ m n, q.contains m = true → p.Embeds m n → c.replaced? ≠ some n → q.Embeds m n
  domain_eq : ∀ n, p.contains n = true → q.contains n = true → q.domain? n = p.domain? n

theorem Obeys.domain? (h : Obeys c p q) {d : Domain} (hn : q.contains n = true)
    (hd : p.domain? n = some d) : q.domain? n = some d :=
  (h.domain_eq n (contains_of_domain? hd) hn).trans hd

/-- What has holders after the command is there after it. -/
theorem Obeys.held (h : Obeys c p q) (hn : p.contains n = true) (hpos : 0 < c.holders p n) :
    q.contains n = true := by
  apply contains_of_roots_pos
  rwa [h.roots, if_pos hn]

theorem Keeps.obeys (h : p.Keeps q) (hc : ∀ n, p.contains n = true → c.holders p n = p.roots n) :
    Obeys c p q where
  wellFormed := h.wellFormed
  ages := h.ages
  roots n := by
    rw [h.roots]
    split
    case isTrue hn => exact (hc n hn).symm
    case isFalse hn => exact roots_eq_zero (Bool.not_eq_true _ ▸ hn)
  embeds m n _ hmn _ := h.embeds m n hmn
  domain_eq n hn _ := h.domain_eq n hn

theorem Shrinks.ages (h : p.Shrinks q) : p.Ages q := Ages.of_contains h.size.ge fun _ => h.contains

/-- A change of the number of holders, after which some patterns may go that nobody holds. -/
theorem Shrinks.obeys {f : Node → Node} (hq : (p.modify id f).Shrinks q) (hf : KeepsPlace f)
    (hroots : ∀ n, p.contains n = true → (p.modify id f).roots n = c.holders p n) :
    Obeys c p q where
  wellFormed := hq.wellFormed
  ages := (Ages.of_contains
    (size_modify ..).ge fun n hn => by rwa [contains_congr (kind?_modify hf.kind)] at hn).trans
    hq.ages
  roots n := by
    rw [hq.roots]
    split
    case isTrue hn => exact hroots n hn
    case isFalse hn =>
      apply roots_eq_zero
      rw [contains_congr (kind?_modify hf.kind)]
      exact Bool.not_eq_true _ ▸ hn
  embeds m n hm hmn _ := by rwa [hq.embeds_iff hm, embeds_congr (kind?_modify hf.kind)]
  domain_eq n _ hn := by rw [hq.domain? hn, domain?_congr (kind?_modify hf.kind)]

/-- A pattern gives way to its canonical one, after which some patterns may go that nobody holds. -/
theorem Redirects.obeys {old new : PatternId} (h : Redirects old new q r) (hpq : p.Keeps q)
    {t : Pool} (ht : r.Shrinks t) : Obeys (.mutatingCanonicalize old) p t where
  wellFormed := ht.wellFormed
  ages := (hpq.ages.trans (Ages.of_contains h.size.ge fun n hn => by rwa [h.contains] at hn)).trans
    ht.ages
  roots n := by
    rw [ht.roots, h.roots, hpq.roots]
    split
    case isTrue => rfl
    case isFalse hn => exact roots_eq_zero (Bool.not_eq_true _ ▸ hn)
  embeds m n hm hmn hn := by
    rw [ht.embeds_iff hm]
    apply h.embeds m n (hpq.embeds m n hmn)
    intro heq
    apply hn
    rw [heq]
    rfl
  domain_eq n hn ht' := by rw [ht.domain? ht', h.domain?, hpq.domain_eq n hn]

end Pool

namespace Edit

open Pool
open Relation (ReflTransGen TransGen)

variable {α : Type} {p : Pool} {c : Command}

/-- An edit that starts by looking for a live pattern. -/
theorem after_node_bind (id : PatternId) (f : Node → Edit α) (p : Pool) :
    (Edit.node id >>= f).after p = match p.get? id with
      | some node => (f node).after p
      | none => p := by
  rw [after_bind, Edit.node]
  cases p.get? id <;> rfl

/-! ## Commands that leave all patterns alive -/

theorem growing_detectMatchers (id : PatternId) : Growing none (detectMatchers id) := by
  intro p _
  have hfold : ∀ (ids : List PatternId) (q : Pool), ReflTransGen (Grows none) q
      (ids.foldl (fun q sub => q.modify sub ({ · with matcher := p.detectedMatcher? sub })) q) := by
    intro ids
    induction ids with
    | nil => exact fun q => ReflTransGen.refl
    | cons sub ids ih =>
      intro q
      have hplace : KeepsPlace ({ · with matcher := p.detectedMatcher? sub }) :=
        ⟨fun _ => rfl, fun _ => rfl, fun _ => rfl, fun _ => rfl, fun _ => rfl⟩
      exact (ih _).head (.modify hplace (fun _ => rfl) sub)
  exact hfold _ p

theorem keeping_detectMatchers (id : PatternId) : Keeping (detectMatchers id) :=
  (growing_detectMatchers id).keeping

/-- The answer for a live pattern and the pool after it are those of `canonicalOf`. -/
theorem canonicalize_eq {id : PatternId} (hid : p.contains id = true) :
    canonicalize id p = .ok ((canonicalOf p.nodes.size id).run (p, [])).1
      ((canonicalOf p.nodes.size id).run (p, [])).2.1 := by
  obtain ⟨node, hnode⟩ := Option.isSome_iff_exists.1 hid
  exact node_bind_eq hnode _

/-- A live pattern has a canonical one of its meaning, in a pool where the older patterns are as
they were. If it is another one, the pattern does not become canonical itself. -/
theorem canonicalize_spec (hp : p.WellFormed) {id : PatternId} (hid : p.contains id = true) :
    ∃ c q, canonicalize id p = .ok c q ∧
      Refines (fun n => TransGen p.Embeds id n ∨ n = id ∧ n = c) p q ∧ q.isCanonical c = true ∧
        (p.Aligned → q.meaning c = p.meaning id) ∧ (c ≠ id → q.isCanonical id = false) := by
  obtain ⟨hrefines, hcanonical, hmeaning⟩ := hp.canonicalOf hid
  exact ⟨_, _, canonicalize_eq hid, hrefines, hcanonical, hmeaning, hp.not_isCanonical_of_ne hid⟩

theorem domain?_canonicalize (hp : p.WellFormed) {id c : PatternId} {q : Pool} {d : Domain}
    (hd : p.domain? id = some d) (hrun : canonicalize id p = .ok c q) : q.domain? c = some d := by
  obtain ⟨s, hs⟩ := domain?_eq_some.1 hd
  rw [canonicalize_eq (kind?_isSome_iff.1 ⟨_, hs⟩)] at hrun
  injection hrun with hc hq
  rw [← hc, ← hq]
  exact hp.domain?_canonicalOf hd

theorem canonicalize_of_canonical {id : PatternId} (hid : p.isCanonical id = true) :
    canonicalize id p = .ok id p := by
  rw [canonicalize_eq (contains_of_isCanonical hid), run_canonicalOf_canonical hid]

theorem canonicalize_eq_error {id : PatternId} (hid : p.contains id = false) :
    canonicalize id p = .error (.unknownPattern id) p := by
  have hdead : Edit.node id p = .error (.unknownPattern id) p := by
    rw [contains, Option.isSome_eq_false_iff, Option.isNone_iff_eq_none] at hid
    rw [Edit.node, hid]
  unfold canonicalize
  show EStateM.bind (Edit.node id) _ p = _
  rw [EStateM.bind, hdead]

/-- Of the older patterns only those at and under the canonicalized one may become canonical. -/
theorem refines_canonicalize (hp : p.WellFormed) (id : PatternId) :
    Refines (ReflTransGen p.Embeds id) p ((canonicalize id).after p) := by
  unfold after
  cases hid : p.contains id with
  | false =>
    rw [canonicalize_eq_error hid]
    exact Refines.refl hp
  | true =>
    obtain ⟨c, q, hrun, hrefines, -⟩ := canonicalize_spec hp hid
    rw [hrun]
    refine hrefines.mono ?_
    rintro n (hn | ⟨rfl, -⟩)
    · exact hn.to_reflTransGen
    · exact ReflTransGen.refl

theorem keeping_canonicalize (id : PatternId) : Keeping (canonicalize id) := fun _ hp =>
  (refines_canonicalize hp id).keeps

theorem keeps_setGrowthBits (h : p.WellFormed) (bits : Nat) :
    p.Keeps { p with growthBits := bits } where
  wellFormed := h.congr rfl rfl rfl rfl rfl rfl rfl rfl
  ages := Ages.of_contains le_rfl fun _ hn => hn
  contains _ hn := hn
  roots := rfl
  embeds _ _ hmn := hmn
  domain_eq _ _ := rfl

/-! ## Holders -/

/-- The holders of a node are counted anew. -/
theorem roots_modify_of {f : Node → Node} {g : Nat → Nat}
    (hf : ∀ node, (f node).roots = g node.roots) (id : PatternId) {n : PatternId}
    (hn : p.contains n = true) :
    (p.modify id f).roots n = if n = id then g (p.roots n) else p.roots n := by
  obtain ⟨node, hnode⟩ := Option.isSome_iff_exists.1 hn
  rw [roots, get?_modify, roots, hnode]
  split
  · exact hf node
  · rfl

theorem after_retain (id : PatternId) (p : Pool) :
    (retain id).after p = p.modify id fun n => { n with roots := n.roots + 1 } := by
  unfold retain
  rw [after_node_bind]
  cases hnode : p.get? id with
  | none => exact (modify_eq_self fun node hsome => absurd (hnode.symm.trans hsome) (by simp)).symm
  | some node => rfl

theorem obeys_retain (hp : p.WellFormed) (id : PatternId) :
    Obeys (.retain id) p ((retain id).after p) := by
  have hplace : KeepsPlace fun n => { n with roots := n.roots + 1 } :=
    ⟨fun _ => rfl, fun _ => rfl, fun _ => rfl, fun _ => rfl, fun _ => rfl⟩
  rw [after_retain]
  exact (Shrinks.refl (hp.modify hplace id)).obeys hplace fun n hn =>
    roots_modify_of (fun _ => rfl) id hn

/-- A pattern without holders is refused, and stays as it is. Otherwise some patterns may go. -/
theorem release_cases (hp : p.WellFormed) (id : PatternId) :
    p.roots id = 0 ∧ (release id).after p = p ∨
      (p.modify id fun n => { n with roots := n.roots - 1 }).Shrinks ((release id).after p) := by
  unfold release
  rw [after_node_bind]
  cases hnode : p.get? id with
  | none => exact Or.inl ⟨by rw [roots, hnode]; rfl, rfl⟩
  | some node =>
    dsimp only
    split
    case isTrue hroots => exact Or.inl ⟨by rw [roots, hnode]; exact hroots, rfl⟩
    case isFalse =>
      have hplace : KeepsPlace fun n => { n with roots := n.roots - 1 } :=
        ⟨fun _ => rfl, fun _ => rfl, fun _ => rfl, fun _ => rfl, fun _ => rfl⟩
      have hreleased := hp.modify hplace id
      right
      show Shrinks _
        (if (p.modify id fun n => { n with roots := n.roots - 1 }).isOrphan id then _ else _)
      split
      case isTrue horphan => exact hreleased.shrinks_destroy fun _ => (isOrphan_iff.1 horphan).2
      case isFalse => exact Shrinks.refl hreleased

theorem obeys_release (hp : p.WellFormed) (id : PatternId) :
    Obeys (.release id) p ((release id).after p) := by
  rcases release_cases hp id with ⟨hroots, hsame⟩ | hshrinks
  · rw [hsame]
    apply (Keeps.refl hp).obeys
    intro n _
    show (if n = id then p.roots n - 1 else p.roots n) = p.roots n
    split
    case isTrue hn => rw [hn, hroots]
    case isFalse => rfl
  · exact hshrinks.obeys ⟨fun _ => rfl, fun _ => rfl, fun _ => rfl, fun _ => rfl, fun _ => rfl⟩
      fun n hn => roots_modify_of (g := (· - 1)) (fun _ => rfl) id hn

theorem shrinks_sweep (hp : p.WellFormed) : p.Shrinks (sweep.after p) :=
  hp.shrinks_foldl_destroy (fun _ hid => (List.mem_filter.1 hid).2) (Shrinks.refl hp)

theorem obeys_sweep (hp : p.WellFormed) : Obeys .sweep p (sweep.after p) := by
  have hshrinks := shrinks_sweep hp
  exact {
    wellFormed := hshrinks.wellFormed
    ages := hshrinks.ages
    roots := by
      intro n
      apply (congrFun hshrinks.roots n).trans
      split
      case isTrue => rfl
      case isFalse hn => exact roots_eq_zero (Bool.not_eq_true _ ▸ hn)
    embeds := fun m n hm hmn _ => (hshrinks.embeds_iff hm).2 hmn
    domain_eq := fun n _ hn => hshrinks.domain? hn }

/-! ## Canonicalization in place -/

/-- A canonical pattern stays as it is. Otherwise all that embedded the pattern embeds its canonical
one, and some patterns may go. -/
theorem mutatingCanonicalize_cases (hp : p.WellFormed) (id : PatternId) :
    (mutatingCanonicalize id).after p = (canonicalize id).after p ∨
      ∃ c q, canonicalize id p = .ok c q ∧ c ≠ id ∧
        (q.migrateSupers id c).Shrinks ((mutatingCanonicalize id).after p) := by
  unfold mutatingCanonicalize
  rw [after_bind]
  cases hid : p.contains id with
  | false =>
    rw [after, canonicalize_eq_error hid]
    exact Or.inl rfl
  | true =>
    obtain ⟨canonical, q, hrun, hrefines, hcanonical, -, hself⟩ := canonicalize_spec hp hid
    rw [after, hrun]
    dsimp only
    split
    case isTrue => exact Or.inl rfl
    case isFalse hne =>
      rw [after_node_bind]
      cases hnode : q.get? id with
      | none => exact Or.inl rfl
      | some node =>
        refine Or.inr ⟨canonical, q, rfl, hne, ?_⟩
        obtain ⟨hredirects, hsupers⟩ :=
          hrefines.wellFormed.migrateSupers (Ne.symm hne) (hself hne) hcanonical
        show Shrinks _ (if _ then _ else _)
        split
        case isTrue hfree =>
          -- nobody holds the old pattern, and nothing embeds it any more
          have hroots : (q.migrateSupers id canonical).roots id = 0 := by
            rw [hredirects.roots, roots, hnode]
            exact hfree.1
          exact hredirects.wellFormed.shrinks_destroy fun _ => ⟨hroots, hsupers⟩
        case isFalse => exact Shrinks.refl hredirects.wellFormed

/-- What is known of a pattern and its canonical one, where they are not the same. -/
theorem canonicalize_ne (hp : p.WellFormed) {id c : PatternId} {q : Pool}
    (hrun : canonicalize id p = .ok c q) (hne : c ≠ id) :
    Refines (fun n => TransGen p.Embeds id n ∨ n = id ∧ n = c) p q ∧ q.isCanonical c = true ∧
      q.isCanonical id = false := by
  cases hid : p.contains id with
  | false =>
    rw [canonicalize_eq_error hid] at hrun
    cases hrun
  | true =>
    obtain ⟨c', q', hrun', hrefines, hcanonical, -, hself⟩ := canonicalize_spec hp hid
    rw [hrun] at hrun'
    obtain ⟨rfl, rfl⟩ := EStateM.Result.ok.inj hrun'
    exact ⟨hrefines, hcanonical, hself hne⟩

theorem obeys_mutatingCanonicalize (hp : p.WellFormed) (id : PatternId) :
    Obeys (.mutatingCanonicalize id) p ((mutatingCanonicalize id).after p) := by
  rcases mutatingCanonicalize_cases hp id with hsame | ⟨c, q, hrun, hne, hshrinks⟩
  · rw [hsame]
    exact (keeping_canonicalize id p hp).obeys fun _ _ => rfl
  · obtain ⟨hrefines, hcanonical, hself⟩ := canonicalize_ne hp hrun hne
    exact (hrefines.wellFormed.migrateSupers (Ne.symm hne) hself hcanonical).1.obeys
      hrefines.keeps hshrinks

end Edit

/-! ## Histories -/

namespace Pool

open Relation (ReflTransGen TransGen)

variable {p : Pool}

/-- A command that builds is made of the steps of constructors and setters. -/
theorem WellFormed.grows_apply (h : p.WellFormed) {c : Command} (hc : c.builds = true) :
    ReflTransGen (Grows c.pushed?) p (c.apply p) := by
  cases c with
  | literal l lead => exact Edit.growing_literal l lead p h
  | lit bytes => exact Edit.growing_lit bytes p h
  | litNocase bytes => exact Edit.growing_litNocase bytes p h
  | any bits => exact Edit.growing_any bits p h
  | range lo hi => exact Edit.growing_range lo hi p h
  | anchor a => exact Edit.growing_anchor a p h
  | alt subs => exact Edit.growing_alt subs p h
  | seq subs => exact Edit.growing_seq subs p h
  | rep sub counts => exact Edit.growing_rep sub counts p h
  | ctx domain sub => exact Edit.growing_ctx sub domain p h
  | startingWith bytes => exact Edit.growing_startingWith bytes p h
  | endingWith bytes => exact Edit.growing_endingWith bytes p h
  | equalTo bytes => exact Edit.growing_equalTo bytes p h
  | digit => exact Edit.growing_digit p h
  | hexDigit => exact Edit.growing_hexDigit p h
  | letter => exact Edit.growing_letter p h
  | identifier => exact Edit.growing_identifier p h
  | pushSub multi sub => exact Edit.growing_pushSub multi sub p h
  | setName id name => exact Edit.growing_describe id _ p h
  | setDoc id doc => exact Edit.growing_describe id _ p h
  | setFormat id format => exact Edit.growing_describe id _ p h
  | setUnit id unit => exact Edit.growing_describe id _ p h
  | setMatcher id matcher => exact Edit.growing_setMatcher id matcher p h
  | detectMatchers id => exact Edit.growing_detectMatchers id p h
  | _ => exact absurd hc Bool.false_ne_true

/-- What a command may do to a well-formed pool. -/
theorem WellFormed.obeys (h : p.WellFormed) (c : Command) : Obeys c p (c.apply p) := by
  cases hc : c.builds with
  | true =>
    apply (keeps_of_grows (h.grows_apply hc) h).obeys
    intro n _
    cases c <;> first | rfl | exact absurd hc Bool.false_ne_true
  | false =>
    cases c with
    | setGrowthBits bits => exact (Edit.keeps_setGrowthBits h bits).obeys fun _ _ => rfl
    | retain id => exact Edit.obeys_retain h id
    | release id => exact Edit.obeys_release h id
    | sweep => exact Edit.obeys_sweep h
    | canonicalize id => exact (Edit.keeping_canonicalize id p h).obeys fun _ _ => rfl
    | mutatingCanonicalize id => exact Edit.obeys_mutatingCanonicalize h id
    | _ => exact absurd hc.symm Bool.false_ne_true

theorem WellFormed.foldl_apply (h : p.WellFormed) (cs : List Command) :
    (cs.foldl (fun p c => c.apply p) p).WellFormed := by
  induction cs generalizing p with
  | nil => exact h
  | cons c cs ih => exact ih (h.obeys c).wellFormed

/-- Whatever is done to a pool, it stays well formed. -/
theorem wellFormed_run (cs : List Command) : (run cs).WellFormed := wellFormed_empty.foldl_apply cs

/-- A pattern that is held survives a command with all that is under it, but for a pattern that
gives way. -/
theorem Obeys.contains_of_reaches {q : Pool} {c : Command} {m n : PatternId} (h : Obeys c p q)
    (hn : q.contains n = true)
    (hnm : ReflTransGen (fun a b => p.Embeds a b ∧ c.replaced? ≠ some b) n m) :
    q.contains m = true := by
  induction hnm with
  | refl => exact hn
  | tail _ hlast ih => exact h.wellFormed.contains_sub (h.embeds _ _ ih hlast.1 hlast.2)

/-- The graph of every pool with a history: sub-patterns are live, the back edges are the edges
reversed, there is no cycle, the live patterns are counted, and what is held stays with all that is
under it. -/
theorem run_graph_invariant (cs : List Command) (c : Command) :
    let p := run cs
    let q := c.apply p
    (∀ m n, p.Embeds m n → p.contains n = true) ∧
      (∀ m n, m ∈ p.supers n ↔ p.Embeds m n) ∧
      (∀ n, ¬ TransGen p.Embeds n n) ∧
      (p.ids.Nodup ∧ (∀ n, n ∈ p.ids ↔ p.contains n = true) ∧ p.live = p.ids.length) ∧
      ∀ n, p.contains n = true → 0 < c.holders p n →
        q.contains n = true ∧ q.roots n = c.holders p n ∧
          (∀ m, ReflTransGen q.Embeds n m → q.contains m = true) ∧
          ∀ m, ReflTransGen (fun a b => p.Embeds a b ∧ c.replaced? ≠ some b) n m →
            q.contains m = true := by
  intro p q
  have hp : p.WellFormed := wellFormed_run cs
  have hobeys : Obeys c p q := hp.obeys c
  refine ⟨fun m n hmn => hp.contains_sub hmn, hp.mem_supers, hp.acyclic,
    ⟨nodup_ids p, fun n => mem_ids, hp.live_eq⟩, ?_⟩
  intro n hn hheld
  have hlive := hobeys.held hn hheld
  exact ⟨hlive, by rw [hobeys.roots, if_pos hn], fun m hnm =>
    hobeys.wellFormed.contains_of_reaches hlive hnm,
    fun m hnm => hobeys.contains_of_reaches hlive hnm⟩

end Pool

end Sigil
